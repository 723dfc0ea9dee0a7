/-!
  Blank characters, and texts without them at their ends.

  `isBlank` is the property White_Space of the Unicode character database: the ASCII blanks, the next
  line and the no-break space, and the spaces and separators of the higher planes.  Characters that
  merely take no room, such as the zero-width space, are not blank.
-/

namespace EntitySchema.Text

/-- The character is white space. -/
def isBlank (c : Char) : Bool :=
  let n := c.toNat
  (0x9 ≤ n && n ≤ 0xd) || n == 0x20 || n == 0x85 || n == 0xa0 || n == 0x1680 ||
    (0x2000 ≤ n && n ≤ 0x200a) || n == 0x2028 || n == 0x2029 || n == 0x202f || n == 0x205f ||
    n == 0x3000

/-- The text without the blanks at its front. -/
def trimFront (cs : List Char) : List Char := cs.dropWhile isBlank

/-- The text without the blanks at its end. -/
def trimBack (cs : List Char) : List Char := (trimFront cs.reverse).reverse

/-- The text without the blanks at both ends. -/
def trim (cs : List Char) : List Char := trimBack (trimFront cs)

@[simp] theorem trim_nil : trim [] = [] := rfl

example : trim "\t a b \u3000".toList = "a b".toList := by decide
example : isBlank '\u200b' = false ∧ isBlank '\ufeff' = false ∧ isBlank '\x1c' = false := by decide

end EntitySchema.Text
