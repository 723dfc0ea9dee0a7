import EntitySchema.Position
import EntitySchema.SourceText
/-!
  Reading a source one character at a time, with one character of look-ahead.

  A reader stands before a character of the source.  `next` hands that character out, `putBack` takes the last
  one handed out back, and two bulk reads hand out the rest of the line (`restOfLine`) or all up to a
  delimiter (`upTo`). Carriage returns are passed over by every one of them, so a source reads the same
  whatever its line ends are, and no position counts one.

  Only the character of the very last `next` can be put back: after a second `putBack`, after a bulk read, or
  when `next` found the source at its end, `putBack` does nothing.

  What a reader `r` has in front of it is `r.text`, the rest of the source without carriage returns.  Every
  read is described by what it takes of the text: `r.Passes after taken` says that

      r.text = taken ++ after.text     and     after.position = r.position.advanceAll taken

  and the lemmas on single reads are of the form "the read hands out this much and passes that much":
  * `exists_next_of_text_nil`, `exists_next_of_text_cons` for `next`,
  * `exists_run` for reading on while a condition holds,
  * `exists_restOfLine`, `exists_upTo` for the bulk reads.

  Carriage returns show in none of these statements.  They are met in the proofs, where `dropReturns` and
  `withoutReturns_span` deal with them.
-/

namespace EntitySchema

/-- A reader: what it has not handed out, and where that stands. -/
structure Reader where
  /-- The characters not yet handed out, carriage returns included. -/
  rest : List Char
  /-- The place of the next character. -/
  position : Position
  /-- Where the reader stood before the character that can still be put back. -/
  before : Option (List Char × Position)
  /-- The last `next` found no character left. -/
  exhausted : Bool

namespace Reader

/-- A reader before the first character of `source`; a leading byte-order mark is passed over. -/
def ofText (source : List Char) : Reader :=
  ⟨SourceText.dropMark source, Position.start, none, false⟩

/-- The characters from the first one that is not a carriage return on. -/
def dropReturns (cs : List Char) : List Char :=
  cs.dropWhile (· = '\r')

/-- The next character, or nothing at the end of the source. -/
def next (r : Reader) : Option Char × Reader :=
  match dropReturns r.rest with
  | [] => (none, { r with rest := [], before := none, exhausted := true })
  | c :: cs => (some c, ⟨cs, r.position.advance c, some (c :: cs, r.position), false⟩)

/-- The reader before the character it handed out last, if that can still be put back. -/
def putBack (r : Reader) : Reader :=
  match r.before with
  | some (rest, position) => { r with rest, position, before := none }
  | none => r

/-- The reader after the characters `taken`, which stand in front of `rest`. -/
def past (r : Reader) (taken rest : List Char) : Reader :=
  { r with rest, position := r.position.advanceAll (SourceText.withoutReturns taken), before := none }

/-- The text up to the next newline or the end; the newline itself is not taken. -/
def restOfLine (r : Reader) : List Char × Reader :=
  let taken := r.rest.takeWhile (· ≠ '\n')
  (SourceText.withoutReturns taken, r.past taken (r.rest.dropWhile (· ≠ '\n')))

/-- The text up to the next `delimiter`, which is taken too and counts one column whatever it is.
Without one the whole rest is taken and nothing handed out. -/
def upTo (r : Reader) (delimiter : Char) : Option (List Char) × Reader :=
  let taken := r.rest.takeWhile (· ≠ delimiter)
  match r.rest.dropWhile (· ≠ delimiter) with
  | [] => (none, r.past r.rest [])
  | _ :: rest =>
    let here := r.past taken rest
    -- A newline as delimiter does not start a line.
    (some (SourceText.withoutReturns taken), { here with position := here.position.nextColumn })

/-! ## What is in front of a reader -/

/-- The characters that the reader can still hand out. -/
def text (r : Reader) : List Char := SourceText.withoutReturns r.rest

/-- At the start the whole visible text is in front of a reader. -/
theorem text_ofText (source : List Char) : (ofText source).text = SourceText.visible source := rfl

/-- Carriage returns in front are not part of the text, so passing over them leaves it as it is. -/
theorem withoutReturns_dropReturns (cs : List Char) :
    SourceText.withoutReturns (dropReturns cs) = SourceText.withoutReturns cs := by
  induction cs with
  | nil => rfl
  | cons c cs ih =>
    rw [dropReturns, List.dropWhile_cons]
    by_cases hc : c = '\r'
    · subst hc
      exact ih
    · rw [if_neg (by simpa using hc)]

/-- Behind the carriage returns in front there is another character, if there is one at all. -/
theorem head_dropReturns_ne {cs more : List Char} {c : Char} (h : dropReturns cs = c :: more) :
    c ≠ '\r' := by
  intro hc
  have hnot := List.head?_dropWhile_not (· = '\r') cs
  rw [show cs.dropWhile (· = '\r') = c :: more from h] at hnot
  simp [hc] at hnot

/-- The reader stands behind `taken` now, which was in front of it: `taken` is what is missing from the text,
and the place has moved over it. -/
structure Passes (r after : Reader) (taken : List Char) : Prop where
  text_eq : r.text = taken ++ after.text
  position_eq : after.position = r.position.advanceAll taken

/-- Two reads in a row pass what each of them passes. -/
theorem Passes.trans {r mid last : Reader} {taken more : List Char} (h : r.Passes mid taken)
    (h' : mid.Passes last more) : r.Passes last (taken ++ more) where
  text_eq := by rw [h.text_eq, h'.text_eq, List.append_assoc]
  position_eq := by rw [h'.position_eq, h.position_eq, Position.advanceAll_append]

/-- A reader that passes nothing has the same text in front of it. -/
theorem Passes.text_of_nil {r after : Reader} (h : r.Passes after []) : after.text = r.text :=
  h.text_eq.symm

/-- A reader that passes one character has lost the first one of its text. -/
theorem Passes.text_of_singleton {r after : Reader} {c d : Char} {cs : List Char}
    (h : r.Passes after [d]) (htext : r.text = c :: cs) : after.text = cs :=
  (List.cons.inj (h.text_eq.symm.trans htext)).2

/-- A reader that passes the characters with `p` at the front stands before the first one without. -/
theorem Passes.text_of_takeWhile {p : Char → Bool} {r after : Reader}
    (h : r.Passes after (r.text.takeWhile p)) : after.text = r.text.dropWhile p :=
  List.append_cancel_left (h.text_eq.symm.trans List.takeWhile_append_dropWhile.symm)

/-- At the end of the text nothing is handed out. -/
theorem exists_next_of_text_nil {r : Reader} (h : r.text = []) :
    ∃ after, r.next = (none, after) ∧ r.Passes after [] := by
  refine ⟨⟨[], r.position, none, true⟩, ?_, h, rfl⟩
  rw [text, ← withoutReturns_dropReturns] at h
  rw [next]
  split
  · rfl
  · next c cs hrest =>
    rw [hrest, SourceText.withoutReturns_cons_of_ne (head_dropReturns_ne hrest)] at h
    exact absurd h (List.cons_ne_nil _ _)

/-- Before the end the first character is handed out, and it can be put back. -/
theorem exists_next_of_text_cons {r : Reader} {c : Char} {cs : List Char} (h : r.text = c :: cs) :
    ∃ after, r.next = (some c, after) ∧ r.Passes after [c] ∧ r.Passes after.putBack [] := by
  have hvisible := h
  rw [text, ← withoutReturns_dropReturns] at hvisible
  rw [next]
  split
  · next hrest =>
    rw [hrest] at hvisible
    exact absurd hvisible.symm (List.cons_ne_nil _ _)
  · next d rest hrest =>
    have hd := SourceText.withoutReturns_cons_of_ne (head_dropReturns_ne hrest) rest
    rw [hrest, hd] at hvisible
    obtain ⟨rfl, rfl⟩ := List.cons.inj hvisible
    exact ⟨_, rfl, ⟨h, rfl⟩, ⟨h.trans hd.symm, rfl⟩⟩

/-- Whether a reader is exhausted says whether its last `next` found a character. -/
theorem exhausted_next (r : Reader) : r.next.2.exhausted = r.next.1.isNone := by
  rw [next]
  split <;> rfl

/-- No character is found if only carriage returns are left. -/
theorem next_eq_none_iff (r : Reader) : r.next.1 = none ↔ ∀ c ∈ r.rest, c = '\r' := by
  have htext : r.next.1 = none ↔ r.text = [] := by
    cases htext : r.text with
    | nil =>
      obtain ⟨after, hnext, -⟩ := exists_next_of_text_nil htext
      simp [hnext]
    | cons c cs =>
      obtain ⟨after, hnext, -⟩ := exists_next_of_text_cons htext
      simp [hnext]
  rw [htext, text, SourceText.withoutReturns, List.filter_eq_nil_iff]
  simp

/-- Without a character to put back nothing is put back. -/
theorem putBack_of_before_none {r : Reader} (h : r.before = none) : r.putBack = r := by rw [putBack, h]

/-- A character can be put back once. -/
theorem before_putBack (r : Reader) : r.putBack.before = none := by
  rw [putBack]
  split
  · rfl
  · next hnone => exact hnone

/-- The end of the source cannot be put back. -/
theorem before_of_next_none {r after : Reader} (h : r.next = (none, after)) : after.before = none := by
  rw [next] at h
  split at h
  · cases h
    rfl
  · cases h

/-- A character that is handed out is no longer in the rest, nor are the carriage returns in front of it.  So
reading comes to an end. -/
theorem length_rest_of_next {r r' : Reader} {c : Char} (h : r.next = (some c, r')) :
    r'.rest.length < r.rest.length := by
  unfold next at h
  split at h
  · simp at h
  · next d ds hd =>
    simp only [Prod.mk.injEq, Option.some.injEq] at h
    obtain ⟨rfl, rfl⟩ := h
    have hle := (List.dropWhile_suffix (· = '\r') (l := r.rest)).length_le
    rw [show r.rest.dropWhile (· = '\r') = d :: ds from hd] at hle
    exact hle

/-! ## Reading on while a condition holds -/

/-- The characters of `read` and those that follow as long as `p` holds of them.  The first one of which it
does not hold is put back. -/
def run (p : Char → Bool) (r : Reader) (read : Array Char) : List Char × Reader :=
  match _h : r.next with
  | (some c, after) => if p c then after.run p (read.push c) else (read.toList, after.putBack)
  | (none, after) => (read.toList, after)
termination_by r.rest.length
decreasing_by exact length_rest_of_next _h

/-- A run takes what satisfies the condition, and nothing else.  The text gets shorter with every character,
so the induction is on the text and not on the reader; `read`, what was taken before, changes on the way. -/
theorem exists_run (p : Char → Bool) (r : Reader) (read : Array Char) :
    ∃ after, r.run p read = (read.toList ++ r.text.takeWhile p, after) ∧
      r.Passes after (r.text.takeWhile p) := by
  induction htext : r.text generalizing r read with
  | nil =>
    obtain ⟨after, hnext, hpasses⟩ := exists_next_of_text_nil htext
    rw [run, hnext]
    exact ⟨after, by simp, hpasses⟩
  | cons c cs ih =>
    obtain ⟨after, hnext, hpasses, hback⟩ := exists_next_of_text_cons htext
    rw [run, hnext, List.takeWhile_cons]
    -- A character that fails the test is put back, and nothing was passed.
    by_cases hc : p c
    · obtain rfl := hpasses.text_of_singleton htext
      obtain ⟨last, hrun, hmore⟩ := ih after (read.push c) rfl
      refine ⟨last, by simp [hc, hrun], ?_, ?_⟩
      · rw [if_pos hc, htext, List.cons_append, ← hmore.text_eq]
      · rw [if_pos hc, hmore.position_eq, hpasses.position_eq]
        rfl
    · exact ⟨after.putBack, by simp [hc], by simpa [hc] using hback⟩

/-! ## Bulk reads -/

/-- Carriage returns in the way of a bulk read do not show: if a carriage return satisfies `p` itself, cutting
at the first character without `p` and dropping carriage returns can be done in either order. -/
theorem withoutReturns_span {p : Char → Bool} (hp : p '\r') (cs : List Char) :
    SourceText.withoutReturns (cs.takeWhile p) = (SourceText.withoutReturns cs).takeWhile p ∧
      SourceText.withoutReturns (cs.dropWhile p) = (SourceText.withoutReturns cs).dropWhile p := by
  induction cs with
  | nil => exact ⟨rfl, rfl⟩
  | cons c cs ih =>
    by_cases hc : c = '\r'
    · subst hc
      simpa [SourceText.withoutReturns, hp] using ih
    · by_cases hpc : p c
      · simpa [SourceText.withoutReturns, hc, hpc] using ih
      · simp [SourceText.withoutReturns, hc, hpc]

/-- The rest of a line is all up to the next newline, or to the end if there is none. -/
theorem exists_restOfLine (r : Reader) :
    ∃ after, r.restOfLine = (r.text.takeWhile (· ≠ '\n'), after) ∧
      r.Passes after (r.text.takeWhile (· ≠ '\n')) := by
  obtain ⟨htake, hdrop⟩ := withoutReturns_span (p := (· ≠ '\n')) (by decide) r.rest
  refine ⟨r.restOfLine.2, Prod.ext htake rfl, ?_, ?_⟩
  · show r.text = _ ++ SourceText.withoutReturns (r.rest.dropWhile (· ≠ '\n'))
    rw [hdrop]
    exact List.takeWhile_append_dropWhile.symm
  · exact congrArg r.position.advanceAll htake

/-- A delimiter `d` is found if the text has one, and then it is passed too.  A delimiter that is a carriage
return would not be in the text, and a newline would have to start a line. -/
theorem exists_upTo {d : Char} (hreturn : d ≠ '\r') (hnewline : d ≠ '\n') (r : Reader) :
    (r.text.dropWhile (· ≠ d) = [] ∧ ∃ after, r.upTo d = (none, after) ∧ r.Passes after r.text) ∨
      ∃ after, r.text.dropWhile (· ≠ d) = d :: after.text ∧
        r.upTo d = (some (r.text.takeWhile (· ≠ d)), after) ∧
        r.Passes after (r.text.takeWhile (· ≠ d) ++ [d]) := by
  obtain ⟨htake, hdrop⟩ := withoutReturns_span (p := (· ≠ d)) (by simpa using hreturn.symm) r.rest
  rw [upTo]
  split
  · next hrest =>
    rw [hrest] at hdrop
    exact Or.inl ⟨hdrop.symm, _, rfl, (List.append_nil _).symm, rfl⟩
  · next c rest hrest =>
    -- The character that stops the search is the one that was searched for.
    obtain rfl : c = d := by
      have hnot := List.head?_dropWhile_not (· ≠ d) r.rest
      rw [hrest] at hnot
      simpa using hnot
    rw [hrest, SourceText.withoutReturns_cons_of_ne hreturn] at hdrop
    refine Or.inr ⟨_, ?_, Prod.ext (congrArg some htake) rfl, ?_, ?_⟩
    · exact hdrop.symm
    · show r.text = _ ++ [c] ++ SourceText.withoutReturns rest
      rw [List.append_assoc, List.singleton_append, hdrop]
      exact List.takeWhile_append_dropWhile.symm
    · show (r.position.advanceAll _).nextColumn = _
      rw [htake, Position.advanceAll_append, Position.advanceAll_cons, Position.advance, if_neg hnewline]
      rfl

/-- Nothing can be put back behind a bulk read. -/
theorem before_upTo (r : Reader) (d : Char) : (r.upTo d).2.before = none := by
  rw [upTo]
  split <;> rfl

/-- A search that fails has gone to the end of the source. -/
theorem rest_of_upTo_none {r : Reader} {d : Char} (h : (r.upTo d).1 = none) : (r.upTo d).2.rest = [] := by
  rw [upTo] at h ⊢
  split at h
  · rfl
  · cases h

end Reader

end EntitySchema
