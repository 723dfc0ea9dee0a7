/-!
  Places in a text.

  A place is a line and a column, both counted from one, and a column counts characters, not bytes.  Reading a
  character moves the place: a newline starts the next line, every other character takes one column.  So the
  place behind a text `cs` is a fold, `start.advanceAll cs`, and it depends on nothing but `cs`:
  * the line is one more than the number of newlines in `cs` (`line_advanceAll`),
  * the column is one more than the number of characters behind the last of them (`Position.behind`, with the
    theory of tokens).

  Places are ordered as they are read, line before column.
-/

namespace EntitySchema

/-- A place in a text: line and column, both counted from one.  The two numbers are unbounded here.  Counters
of 32 bits that are not checked agree with them as long as they do not overflow: neither number is ever more
than one above the number of characters in front of the place, so every text of fewer than `2 ^ 32 - 1`
characters is safe, and in a longer one all that is said of places holds of these numbers and not of the
counters. -/
structure Position where
  line : Nat
  column : Nat
deriving DecidableEq, Repr, Inhabited

namespace Position

/-- The place of the first character. -/
def start : Position := ⟨1, 1⟩

/-- The first place of the following line. -/
def nextLine (p : Position) : Position := ⟨p.line + 1, 1⟩

/-- The following place on the same line. -/
def nextColumn (p : Position) : Position := ⟨p.line, p.column + 1⟩

/-- The place after the character `c`, which stands at `p`. -/
def advance (p : Position) (c : Char) : Position :=
  if c = '\n' then p.nextLine else p.nextColumn

/-- The place after a whole run of characters, the first of which stands at `p`. -/
def advanceAll (p : Position) (text : List Char) : Position :=
  text.foldl advance p

@[simp] theorem advanceAll_nil (p : Position) : p.advanceAll [] = p := rfl

@[simp] theorem advanceAll_cons (p : Position) (c : Char) (text : List Char) :
    p.advanceAll (c :: text) = (p.advance c).advanceAll text := rfl

@[simp] theorem advanceAll_append (p : Position) (a b : List Char) :
    p.advanceAll (a ++ b) = (p.advanceAll a).advanceAll b := by
  simp [advanceAll, List.foldl_append]

/-- Every newline starts a line, and nothing else does: the line behind `cs` is that of `p` plus the number of
newlines in `cs`. -/
theorem line_advanceAll (p : Position) (cs : List Char) :
    (p.advanceAll cs).line = p.line + cs.count '\n' := by
  induction cs generalizing p with
  | nil => rfl
  | cons c cs ih =>
    rw [advanceAll_cons, ih, advance]
    split
    · next hc =>
      rw [hc, List.count_cons_self]
      exact Nat.add_right_comm p.line 1 _
    · next hc => rw [List.count_cons_of_ne hc, nextColumn]

/-- Reading never leads back to an earlier line. -/
theorem line_le_advanceAll (p : Position) (cs : List Char) : p.line ≤ (p.advanceAll cs).line := by
  rw [line_advanceAll]
  exact Nat.le_add_right _ _

/-- Within a line the line stays. -/
theorem line_advanceAll_of_not_mem {p : Position} {cs : List Char} (h : '\n' ∉ cs) :
    (p.advanceAll cs).line = p.line := by
  rw [line_advanceAll, List.count_eq_zero.2 h, Nat.add_zero]

/-- A text with a newline in it leads to a later line. -/
theorem line_lt_advanceAll {p : Position} {cs : List Char} (h : '\n' ∈ cs) :
    p.line < (p.advanceAll cs).line := by
  rw [line_advanceAll]
  exact Nat.lt_add_of_pos_right (List.count_pos_iff.2 h)

/-- Places compare by line, then by column. -/
instance : Ord Position where
  compare p q := (compare p.line q.line).then (compare p.column q.column)

/-- The written form of a place, `[line:column]`. -/
def text (p : Position) : String := s!"[{p.line}:{p.column}]"

end Position

end EntitySchema
