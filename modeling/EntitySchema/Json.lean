/-!
  JSON values and their two written forms.

  `compact` writes a value on one line without blanks; `pretty` writes every element and every member on a
  line of its own, indented by two spaces a level, and empty containers as they are.  Characters stand
  for themselves but for the quotation mark, the backslash and the controls below U+0020.
-/

namespace EntitySchema

/-- A JSON value; members keep the order they were given in. -/
inductive Json where
  | number (value : Int)
  | string (text : String)
  | array (elements : List Json)
  | object (members : List (String × Json))

namespace Json

/-- A control character by its code point, in four digits. -/
def controlEscape (c : Char) : String :=
  let digits := Nat.toDigits 16 c.toNat
  "\\u" ++ String.ofList (List.replicate (4 - digits.length) '0' ++ digits)

/-- A character as it stands in a string. -/
def escape (c : Char) : String :=
  if c = '\x22' then "\\\x22"
  else if c = '\\' then "\\\\"
  else if c = '\x08' then "\\b"
  else if c = '\x0c' then "\\f"
  else if c = '\n' then "\\n"
  else if c = '\r' then "\\r"
  else if c = '\t' then "\\t"
  else if c.toNat < 0x20 then controlEscape c
  else String.singleton c

/-- A text in quotation marks. -/
def quote (text : String) : String :=
  text.toList.foldl (fun out c => out ++ escape c) "\x22" ++ "\x22"

/-- A fresh line at a level of indentation. -/
def freshLine (level : Nat) : String := "\n" ++ String.ofList (List.replicate (2 * level) ' ')

mutual

/-- A value without blanks. -/
def compact : Json → String
  | number value => toString value
  | string text => quote text
  | array elements => "[" ++ compactElements "" elements ++ "]"
  | object members => "\x7b" ++ compactMembers "" members ++ "\x7d"

/-- Elements after those in `out`. -/
def compactElements (out : String) : List Json → String
  | [] => out
  | x :: xs => compactElements ((if out.isEmpty then out else out ++ ",") ++ x.compact) xs

/-- Members after those in `out`. -/
def compactMembers (out : String) : List (String × Json) → String
  | [] => out
  | (key, x) :: xs =>
    compactMembers ((if out.isEmpty then out else out ++ ",") ++ quote key ++ ":" ++ x.compact) xs

end

mutual

/-- A value that starts on a line at `level`. -/
def prettyAt (level : Nat) : Json → String
  | number value => toString value
  | string text => quote text
  | array [] => "[]"
  | array (x :: xs) =>
    prettyElements (level + 1) ("[" ++ freshLine (level + 1) ++ x.prettyAt (level + 1)) xs ++
      freshLine level ++ "]"
  | object [] => "\x7b\x7d"
  | object ((key, x) :: xs) =>
    prettyMembers (level + 1)
        ("\x7b" ++ freshLine (level + 1) ++ quote key ++ ": " ++ x.prettyAt (level + 1)) xs ++
      freshLine level ++ "\x7d"

/-- Elements on lines at `level`, after those in `out`. -/
def prettyElements (level : Nat) (out : String) : List Json → String
  | [] => out
  | x :: xs => prettyElements level (out ++ "," ++ freshLine level ++ x.prettyAt level) xs

/-- Members on lines at `level`, after those in `out`. -/
def prettyMembers (level : Nat) (out : String) : List (String × Json) → String
  | [] => out
  | (key, x) :: xs =>
    prettyMembers level (out ++ "," ++ freshLine level ++ quote key ++ ": " ++ x.prettyAt level) xs

end

/-- A value over several lines. -/
def pretty (x : Json) : String := x.prettyAt 0

example : compact (object [("k", string "a\n"), ("n", array [number (-1)])]) =
    "\x7b\x22k\x22:\x22a\\n\x22,\x22n\x22:[-1]\x7d" := by
  decide +kernel

end Json

end EntitySchema
