import EntitySchema.Canonical.Page
import EntitySchema.Fnv
/-!
  The canonical text of a token list, and the hash of what it says.

  All layouts of the same tokens have one canonical text.  Comments are kept where they stood, at the end
  of a line or on a line of their own, or dropped if the flags say so.  The content hash is that of the
  text without comments, so it depends on what a file says and not on how it is laid out.
-/

namespace EntitySchema

/-- Options of the canonical text, as a set of bits; bits without a meaning are ignored. -/
structure Flags where
  bits : UInt8
deriving DecidableEq, Repr

namespace Flags

/-- Every token is written. -/
def normal : Flags := ⟨1⟩

/-- Comments are dropped. -/
def discardComments : Flags := ⟨2⟩

/-- Whether comments are dropped. -/
def dropsComments (f : Flags) : Bool := f.bits &&& discardComments.bits != 0

end Flags

/-- A page, and the source line of the last token on it. -/
structure Typesetter where
  page : Page
  lastLine : Option Nat

namespace Typesetter

/-- One more token.  A comment from a later source line than the token before it starts a line. -/
def write (flags : Flags) (s : Typesetter) (t : Token) : Typesetter :=
  if t.isComment && flags.dropsComments then s
  else
    let onNewLine := t.isComment && s.lastLine.any (· < t.position.line)
    let page := if onNewLine then s.page.endLine else s.page
    ⟨page.write t.lexeme, some t.position.line⟩

end Typesetter

/-- The canonical text of a token list. -/
def canonicalText (flags : Flags) (ts : List Token) : String :=
  (ts.foldl (Typesetter.write flags) ⟨Page.empty, none⟩).page.text

/-- The hash of what a token list says. -/
def contentHash (ts : List Token) : UInt32 :=
  Fnv.hashText (canonicalText Flags.discardComments ts)

example : canonicalText Flags.normal [⟨.symbol "a", ⟨1, 1⟩⟩, ⟨.string "b", ⟨1, 3⟩⟩,
    ⟨.comment "c", ⟨1, 9⟩⟩] = "a 'b' # c\n" := by
  decide +kernel

end EntitySchema
