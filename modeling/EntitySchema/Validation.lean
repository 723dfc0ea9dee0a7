import EntitySchema.FileStore
import EntitySchema.Options
import EntitySchema.Parser
import EntitySchema.Protocol.Document
import EntitySchema.Protocol.Summary
/-!
  One run of the validator.

  The description is read from its file and has to be a protocol; then whatever the options ask for is
  produced, in this order: the summary, the JSON document, the canonical form in a file.  Output that was
  produced before a fault stays.
-/

namespace EntitySchema

/-- Why a run fails. -/
inductive ValidationError where
  /-- The description cannot be read. -/
  | unreadable (path : String) (e : FileError)
  /-- The canonical form cannot be written. -/
  | unwritable (path : String) (e : FileError)
  /-- The description is no protocol. -/
  | invalid (e : SourceError)
  /-- The canonical form does not exist, because the description has no tokens. -/
  | unformattable (e : LexError)
deriving DecidableEq, Repr

/-- The fault in words. -/
def ValidationError.message : ValidationError → String
  | unreadable path e => "cannot read " ++ path ++ ": " ++ e.message
  | unwritable path e => "cannot write " ++ path ++ ": " ++ e.message
  | invalid e => e.message
  | unformattable e => e.message

/-- The outcome of a run, and what it printed. -/
structure ValidationRun where
  result : Except ValidationError Protocol
  out : String

namespace Validation

/-- The text of a description's file. -/
def textOf (bytes : Except FileError ByteArray) : Except FileError String :=
  match bytes with
  | .error e => .error e
  | .ok bytes =>
    match String.fromUTF8? bytes with
    | some text => .ok text
    | none => .error .notText

/-- The summary of a protocol, as it is printed. -/
def summaryBlock (p : Protocol) : String := "--- Summary ---\n" ++ p.summary ++ "\n"

/-- The document of a protocol, as it is printed. -/
def jsonBlock (p : Protocol) : String := p.document.pretty ++ "\n"

/-- All that is printed for a protocol. -/
def output (o : Options) (p : Protocol) : String :=
  (if o.verbose then summaryBlock p else "") ++ (if o.json then jsonBlock p else "")

variable {m : Type → Type} [Monad m] [FileStore m]

/-- The canonical form of a description goes into its file. -/
def beautify (o : Options) (source : String) : m (Except ValidationError Unit) :=
  match tokenize source with
  | .error e => return .error (.unformattable e)
  | .ok tokens => do
    match ← FileStore.write o.outputPath (canonicalText Flags.normal tokens).toUTF8 with
    | .ok _ => return .ok ()
    | .error e => return .error (.unwritable o.outputPath e)

/-- One run of the validator. -/
def run (o : Options) : m ValidationRun := do
  match textOf (← FileStore.read o.protocol) with
  | .error e => return ⟨.error (.unreadable o.protocol e), ""⟩
  | .ok source =>
    match parse o.hostTypes source with
    | .error e => return ⟨.error (.invalid e), ""⟩
    | .ok p =>
      if o.beautify then
        match ← beautify o source with
        | .ok _ => return ⟨.ok p, output o p⟩
        | .error e => return ⟨.error e, output o p⟩
      else return ⟨.ok p, output o p⟩

end Validation

end EntitySchema
