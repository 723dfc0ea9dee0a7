import EntitySchema.Palette
import EntitySchema.Validation
/-!
  The validator as a program.

  Help goes to the standard output.  A command line that asks for nothing sensible is answered with what
  is wrong and with the help, on the error output.  A validation prints its status lines on the error
  output and what it was asked for on the standard output.
-/

namespace EntitySchema

/-- What a program leaves behind when it ends. -/
structure ProgramRun where
  /-- Zero if all went well. -/
  code : UInt8
  stdout : String
  stderr : String
deriving DecidableEq, Repr

namespace CommandLine

/-- The help text. -/
def usage : String := String.intercalate "\n" [
  "Usage: scrawl [options]",
  "",
  "Validates a scrawl protocol file.",
  "",
  "Options:",
  "  -protocol <file>     Protocol definition (default: protocol.txt)",
  "  -output <file>       File written by -beautify (default: the protocol file)",
  "  -beautify            Rewrite the protocol in canonical form",
  "  -verbose             Print a summary of the definition tree",
  "  -json                Print the definition tree as JSON",
  "  -color               Force colored output",
  "  -allow <type>        Host component type usable in archetypes (repeatable,",
  "                       default: WorldPosition)",
  "  -allow-field <type>  Allowed component field type (repeatable; when given,",
  "                       component fields must use these or declared types)",
  "  -help                Show this help message"]

/-- The palette of a run whose error output is a terminal or not. -/
def palette (o : Options) (terminal : Bool) : Palette :=
  Palette.ofMode (if o.color then .always else .auto) terminal

/-- What the program leaves behind after a validation. -/
def report (p : Palette) (run : ValidationRun) : ProgramRun :=
  match run.result with
  | .ok _ => ⟨0, run.out, p.banner ++ "\n" ++ p.passed ++ "\n"⟩
  | .error e => ⟨1, run.out, p.banner ++ "\n" ++ p.failed e.message ++ "\n"⟩

variable {m : Type → Type} [Monad m] [FileStore m]

/-- The program, with an error output that is a terminal or not. -/
def run (arguments : List String) (terminal : Bool) : m ProgramRun :=
  match Options.read arguments with
  | .error e => return ⟨1, "", e.message ++ "\n" ++ usage ++ "\n"⟩
  | .ok .help => return ⟨0, usage ++ "\n", ""⟩
  | .ok (.validate o) => do return report (palette o terminal) (← Validation.run o)

end CommandLine

end EntitySchema
