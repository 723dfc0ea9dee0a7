import EntitySchema.Proofs.Lexer.Lines
/-!
  Everything that a step of a lexer can do.

  `TokenStep`, `SilentStep` and `FaultStep` list the steps that report a token, those that pass something over
  and those that find a fault, each with all that holds before it and the lexer after it.

  * Not at rest (`depth ≠ target`): `opens`, `closes`.
  * At rest before a newline: `ends` and `enters` where the line can be entered (`Lands`), `blank` before
    another newline or a comment, and the faults `tab`, `odd` and `deep`.
  * At rest before something else: `separator`, `scans` and the fault `scans`.
  * At rest at the end of the text: `endsLast`, `closesLast`, or finished.

  What is listed is a step (`step_eq`), and there is no other step (`step_cases`).  Together they are the
  inversion lemmas `tokenStep_of_step`, `silentStep_of_step` and `faultStep_of_step`.  Invariants of runs are
  shown case by case from the lists, a lexer is led through a step by naming the case, and `step` is not
  opened again.
-/

namespace EntitySchema

namespace Lexer

/-- Behind a newline and a margin at the lexer's place, `rest` is a line at `level` that can be entered:
nothing at all, at level 0, or a line with a margin of `2 * level` that starts with something other than a
comment and is no more than one level deeper than the scopes that are open. -/
def Lands (l : Lexer) (margin : Nat) (rest : List Char) (level : Nat) : Prop :=
  l.rest = '\n' :: (List.replicate margin ' ' ++ rest) ∧
    ((rest = [] ∧ level = 0) ∨
      (margin = 2 * level ∧ level ≤ l.depth + 1 ∧
        ∃ c more, rest = c :: more ∧ c ≠ ' ' ∧ c ≠ '\t' ∧ c ≠ '\n' ∧ c ≠ '#'))

/-- The steps that report a token. -/
inductive TokenStep (l : Lexer) : Token → Lexer → Prop where
  /-- The line is deeper than the open scopes. -/
  | opens (h : l.depth < l.target) :
      TokenStep l ⟨.openScope, l.position⟩ { l with depth := l.depth + 1, ended := true }
  /-- The line is less deep than the open scopes. -/
  | closes (h : l.target < l.depth) :
      TokenStep l ⟨.closeScope, l.position⟩ { l with depth := l.depth - 1 }
  /-- The next line is not deeper. -/
  | ends {margin level : Nat} {rest : List Char} (hat : l.depth = l.target)
      (hlands : l.Lands margin rest level) (hlevel : level ≤ l.depth) (hopen : l.ended = false) :
      TokenStep l ⟨.endLine, l.position⟩
        { l.past ('\n' :: List.replicate margin ' ') rest with target := level, ended := true }
  /-- The text ends in a line. -/
  | endsLast (hat : l.depth = l.target) (hrest : l.rest = []) (hdepth : l.depth ≠ 0)
      (hopen : l.ended = false) :
      TokenStep l ⟨.endLine, l.position⟩ { l with target := 0, ended := true }
  /-- The text ends in a scope. -/
  | closesLast (hat : l.depth = l.target) (hrest : l.rest = []) (hdepth : l.depth ≠ 0)
      (hended : l.ended = true) :
      TokenStep l ⟨.closeScope, l.position⟩ { l with target := 0, depth := l.depth - 1 }
  /-- Content or a comment. -/
  | scans {c : Char} {cs : List Char} {x : Lexeme} (hat : l.depth = l.target)
      (hrest : l.rest = c :: cs) (hc : c ≠ '\n') (hx : (Scan.ofChars c cs).result = .ok x) :
      TokenStep l ⟨x, l.position⟩
        { l.past (Scan.ofChars c cs).taken (Scan.ofChars c cs).rest with
          ended := x.isComment && l.ended }

/-- The steps that report nothing. -/
inductive SilentStep (l : Lexer) : Lexer → Prop where
  /-- A blank, a tab or a comma. -/
  | separator {c : Char} {cs : List Char} (hat : l.depth = l.target) (hrest : l.rest = c :: cs)
      (hc : Scan.isSeparator c) : SilentStep l (l.past [c] cs)
  /-- A newline before a line without content. -/
  | blank {margin : Nat} {c : Char} {more : List Char} (hat : l.depth = l.target)
      (hrest : l.rest = '\n' :: (List.replicate margin ' ' ++ c :: more)) (hc : c = '\n' ∨ c = '#') :
      SilentStep l (l.past ('\n' :: List.replicate margin ' ') (c :: more))
  /-- A newline before a deeper line, or where no line is open. -/
  | enters {margin level : Nat} {rest : List Char} (hat : l.depth = l.target)
      (hlands : l.Lands margin rest level) (h : l.depth < level ∨ l.ended = true) :
      SilentStep l { l.past ('\n' :: List.replicate margin ' ') rest with target := level }

/-- The character starts a line that has a say in the layout. -/
def StartsLine (c : Char) : Prop := c ≠ ' ' ∧ c ≠ '\t' ∧ c ≠ '\n' ∧ c ≠ '#'

/-- The steps that find a fault. -/
inductive FaultStep (l : Lexer) : LexError → Lexer → Prop where
  /-- A tab in the margin. -/
  | tab {margin : Nat} {more : List Char} (hat : l.depth = l.target)
      (hrest : l.rest = '\n' :: (List.replicate margin ' ' ++ '\t' :: more)) :
      FaultStep l
        ⟨.badIndent '\t', (l.past ('\n' :: List.replicate margin ' ') ('\t' :: more)).position⟩
        ((l.past ('\n' :: List.replicate margin ' ') ('\t' :: more)).past ['\t'] more)
  /-- An odd margin before a line with content. -/
  | odd {margin : Nat} {c : Char} {more : List Char} (hat : l.depth = l.target)
      (hrest : l.rest = '\n' :: (List.replicate margin ' ' ++ c :: more)) (hc : StartsLine c)
      (hodd : margin % 2 ≠ 0) :
      FaultStep l ⟨.oddIndent margin, l.position.nextLine⟩
        (l.past ('\n' :: List.replicate margin ' ') (c :: more))
  /-- A line with content that is too deep. -/
  | deep {level : Nat} {c : Char} {more : List Char} (hat : l.depth = l.target)
      (hrest : l.rest = '\n' :: (List.replicate (2 * level) ' ' ++ c :: more)) (hc : StartsLine c)
      (hdeep : l.depth + 1 < level) :
      FaultStep l
        ⟨.deepIndent (l.depth + 1) level,
          (l.past ('\n' :: List.replicate (2 * level) ' ') (c :: more)).position⟩
        (l.past ('\n' :: List.replicate (2 * level) ' ') (c :: more))
  /-- Characters that are no lexeme. -/
  | scans {c : Char} {cs : List Char} {fault : LexFault} (hat : l.depth = l.target)
      (hrest : l.rest = c :: cs) (hc : c ≠ '\n') (hsep : ¬ Scan.isSeparator c)
      (hx : (Scan.ofChars c cs).result = .error fault) :
      FaultStep l ⟨fault, l.position⟩ (l.past (Scan.ofChars c cs).taken (Scan.ofChars c cs).rest)

/-! ## What is listed is a step -/

variable {l next : Lexer}

/-- A line that can be entered is entered. -/
theorem Lands.step_eq {margin level : Nat} {rest : List Char} (h : l.Lands margin rest level)
    (hat : l.depth = l.target) :
    l.step = l.enterLine (l.past ('\n' :: List.replicate margin ' ') rest) level := by
  obtain ⟨hrest, ⟨rfl, rfl⟩ | ⟨rfl, hlevel, c, more, rfl, hc⟩⟩ := h
  · exact step_lastMargin hat hrest
  · have hlevel' : ¬ l.depth + 1 < 2 * level / 2 := by omega
    simp only [step_newline hat hrest hc.1]
    rw [if_neg hc.2.1, if_neg (by simp [hc.2.2]), if_neg (by simp), if_neg hlevel',
      Nat.mul_div_cancel_left _ (by decide)]

/-- What is listed as reporting `t` is a step that reports `t`. -/
theorem TokenStep.step_eq {t : Token} (h : l.TokenStep t next) : l.step = .token t next := by
  cases h with
  | opens hlt => rw [step, if_pos hlt]
  | closes hlt => rw [step, if_neg (by omega), if_pos hlt]
  | ends hat hlands hlevel hopen =>
    rw [hlands.step_eq hat, enterLine, if_pos ⟨hlevel, by simp [hopen]⟩]
  | endsLast hat hrest hdepth hopen =>
    rw [step, if_neg (by omega), if_neg (by omega), hrest]
    simp [textEnd, hdepth, hopen, hrest]
  | closesLast hat hrest hdepth hended =>
    rw [step, if_neg (by omega), if_neg (by omega), hrest]
    simp [textEnd, hdepth, hended, hrest]
  | scans hat hrest hc hx =>
    rw [step_of_rest hat hrest, if_neg hc, if_neg (by simp [Scan.isSeparator_eq_false_of_ok hx]), scan]
    simp only [hx]

/-- What is listed as silent is a silent step. -/
theorem SilentStep.step_eq (h : l.SilentStep next) : l.step = .silent next := by
  cases h with
  | @separator c cs hat hrest hc =>
    have hline : c ≠ '\n' := by rintro rfl; exact absurd hc (by decide)
    rw [step_of_rest hat hrest, if_neg hline, if_pos hc]
  | @blank margin c more hat hrest hc =>
    have hplain : c ≠ ' ' ∧ c ≠ '\t' := by rcases hc with rfl | rfl <;> decide
    simp only [step_newline hat hrest hplain.1]
    rw [if_neg hplain.2, if_pos hc]
  | enters hat hlands h =>
    rw [hlands.step_eq hat, enterLine, if_neg]
    rintro ⟨hle, hopen⟩
    rcases h with hlt | hended
    · omega
    · exact hopen hended

/-- What is listed as finding the fault `e` is a step that finds it. -/
theorem FaultStep.step_eq {e : LexError} (h : l.FaultStep e next) : l.step = .fault e next := by
  cases h with
  | tab hat hrest =>
    simp only [step_newline hat hrest (by decide)]
    rfl
  | odd hat hrest hc hodd =>
    simp only [step_newline hat hrest hc.1]
    rw [if_neg hc.2.1, if_neg (by simp [hc.2.2]), if_pos hodd]
  | @deep level c more hat hrest hc hdeep =>
    have hlevel : 2 * level / 2 = level := Nat.mul_div_cancel_left _ (by decide)
    simp only [step_newline hat hrest hc.1]
    rw [if_neg hc.2.1, if_neg (by simp [hc.2.2]), if_neg (by simp), hlevel, if_pos hdeep]
  | scans hat hrest hc hsep hx =>
    rw [step_of_rest hat hrest, if_neg hc, if_neg hsep, scan]
    simp only [hx]

/-! ## There is no other step -/

/-- All that a step can do: one of the three lists, or the end. -/
inductive Steps (l : Lexer) : Prop where
  /-- A token is reported. -/
  | token {t : Token} {next : Lexer} (h : l.TokenStep t next)
  /-- Something is passed over. -/
  | silent {next : Lexer} (h : l.SilentStep next)
  /-- A fault is found. -/
  | fault {e : LexError} {after : Lexer} (h : l.FaultStep e after)
  /-- Nothing is left to read and no scope is open. -/
  | finished (hat : l.depth = l.target) (hrest : l.rest = []) (hdepth : l.depth = 0)

/-- The margin of a text is so many spaces. -/
theorem takeWhile_space_eq (cs : List Char) : cs.takeWhile (· = ' ') =
    List.replicate (cs.takeWhile (· = ' ')).length ' ' :=
  List.eq_replicate_of_mem fun c hc => by simpa using List.mem_takeWhile_imp hc

/-- Every text starts with a margin. -/
theorem exists_margin (cs : List Char) : ∃ margin rest,
    cs = List.replicate margin ' ' ++ rest ∧ ∀ c ∈ rest.head?, c ≠ ' ' := by
  refine ⟨(cs.takeWhile (· = ' ')).length, cs.dropWhile (· = ' '), ?_, fun c hc => ?_⟩
  · rw [← takeWhile_space_eq, List.takeWhile_append_dropWhile]
  · simpa using Scan.head?_dropWhile (· = ' ') cs c hc

/-- A line that is entered ends the line before it, or it does not. -/
theorem Lands.steps {margin level : Nat} {rest : List Char} (h : l.Lands margin rest level)
    (hat : l.depth = l.target) : l.Steps := by
  rcases Nat.lt_or_ge l.depth level with hlt | hle
  · exact .silent (.enters hat h (Or.inl hlt))
  cases hended : l.ended with
  | true => exact .silent (.enters hat h (Or.inr hended))
  | false => exact .token (.ends hat h hle hended)

/-- What a step does is listed.  The cases are taken as `step` takes them: first `depth` against `target`,
then the end of the text, a newline with its margin, a separator, and last the scan. -/
theorem step_cases (l : Lexer) : l.Steps := by
  rcases Nat.lt_trichotomy l.depth l.target with hlt | hat | hlt
  -- Not at rest, a mark is reported and no character is looked at.
  · exact .token (.opens hlt)
  · cases hrest : l.rest with
    | nil =>
      by_cases hdepth : l.depth = 0
      · exact .finished hat hrest hdepth
      cases hended : l.ended with
      | true => exact .token (.closesLast hat hrest hdepth hended)
      | false => exact .token (.endsLast hat hrest hdepth hended)
    | cons c cs =>
      by_cases hc : c = '\n'
      · subst hc
        -- The margin of the next line decides, together with the character behind it.
        obtain ⟨margin, rest, rfl, hhead⟩ := exists_margin cs
        cases rest with
        | nil => exact Lands.steps ⟨hrest, Or.inl ⟨rfl, rfl⟩⟩ hat
        | cons d more =>
          by_cases htab : d = '\t'
          · subst htab
            exact .fault (.tab hat hrest)
          by_cases hblank : d = '\n' ∨ d = '#'
          · exact .silent (.blank hat hrest hblank)
          have hd : StartsLine d := ⟨hhead d rfl, htab, not_or.1 hblank⟩
          by_cases hodd : margin % 2 ≠ 0
          · exact .fault (.odd hat hrest hd hodd)
          obtain ⟨level, rfl⟩ : ∃ level, margin = 2 * level := ⟨margin / 2, by omega⟩
          rcases Nat.lt_or_ge (l.depth + 1) level with hdeep | hlevel
          · exact .fault (.deep hat hrest hd hdeep)
          · exact Lands.steps ⟨hrest, Or.inr ⟨rfl, hlevel, d, more, rfl, hd⟩⟩ hat
      · by_cases hsep : Scan.isSeparator c
        · exact .silent (.separator hat hrest hsep)
        · cases hx : (Scan.ofChars c cs).result with
          | ok x => exact .token (.scans hat hrest hc hx)
          | error fault => exact .fault (.scans hat hrest hc hsep hx)
  · exact .token (.closes hlt)

/-- At rest at the end of the text, with no scope open, a lexer is finished. -/
theorem step_of_rest_nil (hat : l.depth = l.target) (hrest : l.rest = []) (hdepth : l.depth = 0) :
    l.step = .finished :=
  step_finished hdepth (hat ▸ hdepth) hrest

/-- A step that reports a token is one of those listed. -/
theorem tokenStep_of_step {t : Token} (h : l.step = .token t next) : l.TokenStep t next := by
  cases step_cases l with
  | token hs => cases h.symm.trans hs.step_eq; exact hs
  | silent hs => cases h.symm.trans hs.step_eq
  | fault hs => cases h.symm.trans hs.step_eq
  | finished hat hrest hdepth => cases h.symm.trans (step_of_rest_nil hat hrest hdepth)

/-- A step that reports nothing is one of those listed. -/
theorem silentStep_of_step (h : l.step = .silent next) : l.SilentStep next := by
  cases step_cases l with
  | token hs => cases h.symm.trans hs.step_eq
  | silent hs => cases h.symm.trans hs.step_eq; exact hs
  | fault hs => cases h.symm.trans hs.step_eq
  | finished hat hrest hdepth => cases h.symm.trans (step_of_rest_nil hat hrest hdepth)

/-- A step that finds a fault is one of those listed. -/
theorem faultStep_of_step {e : LexError} (h : l.step = .fault e next) : l.FaultStep e next := by
  cases step_cases l with
  | token hs => cases h.symm.trans hs.step_eq
  | silent hs => cases h.symm.trans hs.step_eq
  | fault hs => cases h.symm.trans hs.step_eq; exact hs
  | finished hat hrest hdepth => cases h.symm.trans (step_of_rest_nil hat hrest hdepth)

/-- A lexer is finished at the end of the text, where no scope is open. -/
theorem rest_and_depth_of_finished (h : l.step = .finished) : l.rest = [] ∧ l.depth = 0 := by
  cases step_cases l with
  | token hs => cases h.symm.trans hs.step_eq
  | silent hs => cases h.symm.trans hs.step_eq
  | fault hs => cases h.symm.trans hs.step_eq
  | finished hat hrest hdepth => exact ⟨hrest, hdepth⟩

end Lexer

end EntitySchema
