import EntitySchema.Lexer.Error
import EntitySchema.Text.Blank
import EntitySchema.Token
/-!
  One lexeme at the front of a text.

  The first character decides what is read and how far.  A comment runs to the end of its line, a symbol
  as far as letters, digits and hyphens go, a number as far as digits go, and a string to the next quote
  of its own sort, over line ends if need be.  Brackets and the dot stand for themselves.  A character
  that starts none of these is a fault, and so are a string that never closes, a minus sign without
  digits, and a number beyond 64 bits.

  A scan says which characters it took and which it left.  Main statement: `taken_append_rest`, no
  character is lost, repeated or invented, and at least the first one is taken.
-/

namespace EntitySchema

/-- What stands at the front of a text: the characters it took, those it left, and what they spell. -/
structure Scan where
  result : Except LexFault Lexeme
  taken : List Char
  rest : List Char

namespace Scan

/-- A character within a symbol, its first one apart. -/
def isSymbolChar (c : Char) : Bool := c.isAlphanum || c = '-'

/-- A character that separates lexemes of one line. -/
def isSeparator (c : Char) : Bool := c = ' ' || c = '\t' || c = ','

/-- The quote opens and closes strings. -/
def isQuote (c : Char) : Bool := c = Text.singleQuote || c = Text.doubleQuote

/-- A comment, after its number sign. -/
def comment (cs : List Char) : Scan :=
  let text := cs.takeWhile (· ≠ '\n')
  ⟨.ok (.comment (String.ofList (Text.trim text))), '#' :: text, cs.dropWhile (· ≠ '\n')⟩

/-- A symbol that starts with `c`. -/
def symbol (c : Char) (cs : List Char) : Scan :=
  let text := c :: cs.takeWhile isSymbolChar
  ⟨.ok (.symbol (String.ofList text)), text, cs.dropWhile isSymbolChar⟩

/-- What a number's text spells: `c`, a digit or a minus sign, and the digits after it. -/
def numberOf (c : Char) (digits : List Char) : Except LexFault Lexeme :=
  if c = '-' ∧ digits = [] then .error .missingDigits
  else match Integer.read? (c :: digits) with
    | some value => .ok (.number value)
    | none => .error (.outOfRange (String.ofList (c :: digits)))

/-- A number that starts with `c`. -/
def number (c : Char) (cs : List Char) : Scan :=
  let digits := cs.takeWhile Char.isDigit
  ⟨numberOf c digits, c :: digits, cs.dropWhile Char.isDigit⟩

/-- A string, after its opening `quote`.  One that never closes takes all there is. -/
def string (quote : Char) (cs : List Char) : Scan :=
  let text := cs.takeWhile (· ≠ quote)
  match cs.dropWhile (· ≠ quote) with
  | [] => ⟨.error .unclosedString, quote :: cs, []⟩
  | close :: rest => ⟨.ok (.string (String.ofList text)), quote :: (text ++ [close]), rest⟩

/-- What the single character `c` spells. -/
def singleOf (c : Char) : Except LexFault Lexeme :=
  if c = '[' then .ok .openMeta
  else if c = ']' then .ok .closeMeta
  else if c = '.' then .ok (.operator '.')
  else .error (.strayChar c)

/-- A lexeme or a fault of the single character `c`. -/
def single (c : Char) (cs : List Char) : Scan := ⟨singleOf c, [c], cs⟩

/-- What stands at the front of `c :: cs`, where `c` is neither a newline nor a separator.  The order of the
tests does not matter: no character passes two of them. -/
def ofChars (c : Char) (cs : List Char) : Scan :=
  if c = '#' then comment cs
  else if c.isAlpha then symbol c cs
  else if c.isDigit || c = '-' then number c cs
  else if isQuote c then string c cs
  else single c cs

/-- Nothing is lost: what was taken and what was left are the text. -/
theorem taken_append_rest (c : Char) (cs : List Char) :
    (ofChars c cs).taken ++ (ofChars c cs).rest = c :: cs := by
  unfold ofChars
  split
  · next h => subst h; simp [comment, List.takeWhile_append_dropWhile]
  split
  · simp [symbol, List.takeWhile_append_dropWhile]
  split
  · simp [number, List.takeWhile_append_dropWhile]
  split
  · unfold string
    split
    · simp
    · next close rest h =>
      have := List.takeWhile_append_dropWhile (p := (· ≠ c)) (l := cs)
      rw [h] at this
      simpa using this
  · simp [single]

/-- The first character is always taken. -/
theorem exists_taken (c : Char) (cs : List Char) : ∃ more, (ofChars c cs).taken = c :: more := by
  unfold ofChars
  split
  · next h => subst h; exact ⟨_, rfl⟩
  split
  · exact ⟨_, rfl⟩
  split
  · exact ⟨_, rfl⟩
  split
  · unfold string
    split <;> exact ⟨_, rfl⟩
  · exact ⟨_, rfl⟩

/-- Every scan leaves less than it found. -/
theorem length_rest_lt (c : Char) (cs : List Char) :
    (ofChars c cs).rest.length < (c :: cs).length := by
  have h := congrArg List.length (taken_append_rest c cs)
  obtain ⟨more, hm⟩ := exists_taken c cs
  rw [hm] at h
  simp only [List.length_append, List.length_cons] at h ⊢
  omega

end Scan

end EntitySchema
