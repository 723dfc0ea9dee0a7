import EntitySchema.Text.Unshown
/-!
  Characters and texts as messages quote them.

  Between its quotes a text stands as it is, but for five kinds of characters: the quote around it, the
  backslash, the tab, newline and carriage return, NUL, and whatever has no form of its own on the page
  (`isUnshown`).  Those are written as escapes, the last kind by code point, as in `\\u\x7b200b\x7d`.  A
  single character stands in single quotes, a text in double quotes, and each leaves the other quote
  alone.
-/

namespace EntitySchema.Text

/-- The quote around a single character. -/
def singleQuote : Char := '\x27'

/-- The quote around a text. -/
def doubleQuote : Char := '\x22'

/-- The hexadecimal digits of a code point, lower case and without leading zeros. -/
def codePoint (c : Char) : String := String.ofList (Nat.toDigits 16 c.toNat)

/-- A character as it stands between two `quote`s. -/
def escape (quote c : Char) : String :=
  if c = '\x00' then "\\0"
  else if c = '\t' then "\\t"
  else if c = '\r' then "\\r"
  else if c = '\n' then "\\n"
  else if c = '\\' then "\\\\"
  else if c = quote then "\\" ++ String.singleton c
  else if isUnshown c then "\\u\x7b" ++ codePoint c ++ "\x7d"
  else String.singleton c

/-- A single character in single quotes. -/
def quotedChar (c : Char) : String :=
  String.singleton singleQuote ++ escape singleQuote c ++ String.singleton singleQuote

/-- A text in double quotes. -/
def quotedText (s : String) : String :=
  s.toList.foldl (fun out c => out ++ escape doubleQuote c) (String.singleton doubleQuote)
    ++ String.singleton doubleQuote

example : quotedChar '\u200b' = "'\\u\x7b200b\x7d'" := by decide +kernel
example : quotedChar doubleQuote = "'\x22'" ∧ quotedChar singleQuote = "'\\''" := by decide +kernel
example : quotedText "it's \x22so\x22\n" = "\x22it's \\\x22so\\\x22\\n\x22" := by decide +kernel

end EntitySchema.Text
