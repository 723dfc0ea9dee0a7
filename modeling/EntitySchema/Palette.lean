/-!
  The status lines of the validator, in color or plain.
-/

namespace EntitySchema

/-- When colors are used. -/
inductive ColorMode where
  /-- If the output is a terminal. -/
  | auto
  | always
  | never
deriving DecidableEq, Repr

/-- Whether colors are used for an output that is a terminal or not. -/
def ColorMode.usesColors (terminal : Bool) : ColorMode → Bool
  | auto => terminal
  | always => true
  | never => false

/-- How status lines are shown. -/
structure Palette where
  colors : Bool
deriving DecidableEq, Repr

namespace Palette

/-- The sequence that turns the text after it cyan. -/
def cyan : String := "\x1b[36m"

/-- The sequence that turns the text after it green. -/
def green : String := "\x1b[32m"

/-- The sequence that turns the text after it red. -/
def red : String := "\x1b[31m"

/-- The sequence that ends a color. -/
def plain : String := "\x1b[0m"

/-- The palette for a mode and an output. -/
def ofMode (mode : ColorMode) (terminal : Bool) : Palette := ⟨mode.usesColors terminal⟩

/-- A text in a color, if colors are used. -/
def paint (p : Palette) (color text : String) : String :=
  if p.colors then color ++ text ++ plain else text

/-- The line before a validation. -/
def banner (p : Palette) : String := p.paint cyan "scrawl protocol validator 0.2.0"

/-- The line after a validation that found no fault. -/
def passed (p : Palette) : String := p.paint green "Validation passed"

/-- The line after a validation that found a fault. -/
def failed (p : Palette) (message : String) : String := p.paint red ("Error: " ++ message)

end Palette

end EntitySchema
