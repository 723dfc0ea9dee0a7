/-!
  What of a source file is text.

  A byte-order mark in front of everything says how the file is encoded and is no character of the text;
  carriage returns belong to the line ends of some systems and are no characters either.  What is left is the
  `visible` text, `withoutReturns (dropMark cs)`, and positions count it alone.

  The mark is looked for once, at the very front.  So `visible` is not compatible with `++` as it stands: the
  second part of a text keeps a mark that stands in front of it (`visible_append`), and an empty first part is
  the one exception to that lemma.
-/

namespace EntitySchema.SourceText

/-- The mark that may stand in front of an encoded text. -/
def byteOrderMark : Char := '\ufeff'

/-- The characters after a byte-order mark, if there is one in front. -/
def dropMark : List Char → List Char
  | [] => []
  | c :: cs => if c = byteOrderMark then cs else c :: cs

/-- The characters that are not carriage returns. -/
def withoutReturns (cs : List Char) : List Char :=
  cs.filter (· ≠ '\r')

/-- The text of a source: no byte-order mark in front, no carriage return anywhere. -/
def visible (cs : List Char) : List Char :=
  withoutReturns (dropMark cs)

/-- A character that is no carriage return is kept. -/
theorem withoutReturns_cons_of_ne {c : Char} (h : c ≠ '\r') (cs : List Char) :
    withoutReturns (c :: cs) = c :: withoutReturns cs :=
  List.filter_cons_of_pos (by simpa using h)

/-- Carriage returns are dropped part by part, wherever the text is cut. -/
theorem withoutReturns_append (a b : List Char) :
    withoutReturns (a ++ b) = withoutReturns a ++ withoutReturns b := by
  simp [withoutReturns]

/-- Whether there is a byte-order mark shows at the front: behind a `front` that is not empty, `back` only
loses its carriage returns. -/
theorem visible_append {front : List Char} (h : front ≠ []) (back : List Char) :
    visible (front ++ back) = visible front ++ withoutReturns back := by
  cases front with
  | nil => exact absurd rfl h
  | cons c cs =>
    rw [visible, visible, List.cons_append, dropMark, dropMark]
    split
    · exact withoutReturns_append cs back
    · exact withoutReturns_append (c :: cs) back

/-- A newline is in front of nothing that could be a mark, even if nothing is in front of the newline. -/
theorem visible_append_newline (front back : List Char) :
    visible (front ++ '\n' :: back) = visible front ++ '\n' :: withoutReturns back := by
  cases front with
  | nil => rfl
  | cons c front => exact visible_append (List.cons_ne_nil c front) _

/-- No carriage return is left. -/
theorem return_not_mem_withoutReturns (cs : List Char) : '\r' ∉ withoutReturns cs := by
  simp [withoutReturns]

/-- There is nothing to drop a second time. -/
theorem withoutReturns_idem (cs : List Char) :
    withoutReturns (withoutReturns cs) = withoutReturns cs := by
  simp [withoutReturns]

end EntitySchema.SourceText
