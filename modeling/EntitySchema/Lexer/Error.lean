import EntitySchema.Category
import EntitySchema.Position
import EntitySchema.Text.Quoted
/-!
  Why a text has no reading as tokens, and where.
-/

namespace EntitySchema

/-- What is wrong with a text. -/
inductive LexFault where
  /-- A character other than a space indents a line. -/
  | badIndent (found : Char)
  /-- A line is indented by an odd number of spaces. -/
  | oddIndent (spaces : Nat)
  /-- A line is more than one level deeper than the line before it. -/
  | deepIndent (allowed found : Nat)
  /-- A string has no closing quote. -/
  | unclosedString
  /-- No lexeme starts with the character. -/
  | strayChar (found : Char)
  /-- A minus sign stands without digits. -/
  | missingDigits
  /-- A number does not fit into 64 bits. -/
  | outOfRange (text : String)
deriving DecidableEq, Repr

/-- The fault in words. -/
def LexFault.message : LexFault → String
  | badIndent found =>
    "illegal indentation character " ++ Text.quotedChar found ++ ", only spaces are allowed"
  | oddIndent spaces => s!"must have double spaces as indentation, found {spaces} spaces"
  | deepIndent allowed found =>
    s!"too much indentation, expected at most {allowed} levels but found {found}"
  | unclosedString => "unterminated string"
  | strayChar found => "unknown rune " ++ Text.quotedChar found
  | missingDigits => "missing digits after '-'"
  | outOfRange text => "number out of range: " ++ text

/-- A fault and its place. -/
structure LexError where
  fault : LexFault
  position : Position
deriving DecidableEq, Repr

namespace LexError

/-- Every such fault is found while tokens are read. -/
def category (_ : LexError) : Category := .lexical

/-- The fault in words, with its place. -/
def message (e : LexError) : String := e.fault.message ++ " at " ++ e.position.text

end LexError

end EntitySchema
