import EntitySchema.Token
/-!
  A page that is written word by word.

  A page knows the text written so far, how many lines were finished, how many characters stand on the
  current one, and how deep the next line is indented.  A word starts a fresh line with the indentation
  and follows another word after one space.  `write` lays one lexeme out: content and comments are
  words, a comment also finishes its line, and the structural marks move the page instead of writing.
-/

namespace EntitySchema

/-- A page under writing. -/
structure Page where
  /-- All that was written. -/
  text : String
  /-- The number of finished lines. -/
  line : Nat
  /-- The number of characters on the current line. -/
  column : Nat
  /-- The level of indentation of the next fresh line. -/
  indent : Nat
deriving DecidableEq

namespace Page

/-- A page with nothing on it. -/
def empty : Page := ⟨"", 0, 0, 0⟩

/-- Nothing stands on the current line. -/
def atLineStart (p : Page) : Bool := p.column == 0

/-- The text as it is. -/
def put (p : Page) (s : String) : Page :=
  { p with text := p.text ++ s, column := p.column + s.length }

/-- The spaces in front of a fresh line at level `indent`. -/
def margin (indent : Nat) : String := String.ofList (List.replicate (2 * indent) ' ')

/-- A word: indented on a fresh line, after a space otherwise. -/
def putWord (p : Page) (word : String) : Page :=
  (if p.atLineStart then p.put (margin p.indent) else p.put " ").put word

/-- The current line is finished, even if nothing stands on it. -/
def newline (p : Page) : Page :=
  { p with text := p.text ++ "\n", line := p.line + 1, column := 0 }

/-- The current line is finished if anything stands on it. -/
def endLine (p : Page) : Page := if p.atLineStart then p else p.newline

/-- Fresh lines start one level deeper. -/
def deeper (p : Page) : Page := { p with indent := p.indent + 1 }

/-- Fresh lines start one level less deep, if there is one. -/
def shallower (p : Page) : Page := { p with indent := p.indent - 1 }

end Page

/-- The quotes that a string is written with: double if a single quote occurs in it. -/
def Lexeme.quoted (text : String) : String :=
  if text.toList.contains Text.singleQuote then
    String.singleton Text.doubleQuote ++ text ++ String.singleton Text.doubleQuote
  else String.singleton Text.singleQuote ++ text ++ String.singleton Text.singleQuote

/-- The word that spells a lexeme; structural marks have none. -/
def Lexeme.word? : Lexeme → Option String
  | symbol text => some text
  | number value => some (Integer.text value)
  | string text => some (quoted text)
  | comment text => some (if text.isEmpty then "#" else "# " ++ text)
  | operator mark => some (String.singleton mark)
  | openMeta => some "["
  | closeMeta => some "]"
  | openScope | closeScope | endLine => none

/-- A lexeme in canonical layout.  A scope that opens in front of everything starts after an empty line,
because leading spaces of the first line are no indentation. -/
def Page.write (p : Page) (lexeme : Lexeme) : Page :=
  match lexeme with
  | .openScope => (if p.line = 0 ∧ p.atLineStart then p.newline else p.endLine).deeper
  | .closeScope => p.shallower
  | .endLine => p.endLine
  | other =>
    let written := match other.word? with
      | some word => p.putWord word
      | none => p
    if other.isComment then written.newline else written

end EntitySchema
