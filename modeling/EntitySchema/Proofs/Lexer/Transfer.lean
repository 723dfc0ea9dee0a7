import EntitySchema.Proofs.Lexer.Calls
import EntitySchema.Proofs.Lexer.Tiling
/-!
  What a run takes over from one text to another.

  Of the text behind it a step sees no more than the next character, and a comment there is as good as a
  newline.  So texts are `Alike` if they start with the same character, or if one starts with a number sign
  and the other with a newline.  A lexer `m` with the layout of `l`, in front of a text that is alike, takes
  the step that `l` takes, and so it goes for whole runs: if `l` passes `text`, with `rest` behind it, then

      m.rest = text ++ rest'  and  Alike rest rest'   →   m reports the lexemes that l reports

  which is `Reads.change_rest`.  Only the places differ, and they are those that `m` counts itself (`moved`).

  Where the other text is read in other steps, a relation `R` between the two lexers has to say how the second
  one keeps up with the first.  It is enough to look at one step of the first (`KeepsUp`), and `KeepsUp.reads`
  is the induction along the run.  The edits of a source each bring a relation of their own.

  Between the two stand the lemmas on runs in parts: what comes first is the first part of any run to the end
  (`Reads.split`), and every token was reported by a step somewhere (`Reads.exists_of_mem`).
-/

namespace EntitySchema

namespace Lexer

variable {l m mid next last : Lexer} {t : Token} {ts us : List Token} {text rest rest' : List Char}

/-- At the start no scope is open, the line is at level 0, and no line is open. -/
theorem layout_ofSource (source : String) : (ofSource source).layout = (0, 0, true) := rfl

/-- At the start all that is visible of the source is still to come. -/
theorem rest_ofSource (source : String) :
    (ofSource source).rest = SourceText.visible source.toList := rfl

/-! ## Texts that start alike -/

/-- No step tells `rest'` from `rest` if it comes to stand in front of it. -/
def Alike (rest rest' : List Char) : Prop :=
  rest'.head? = rest.head? ∨ (rest.head? = some '#' ∧ rest'.head? = some '\n')

/-- Texts that are alike are alike behind the same text. -/
theorem Alike.append (h : Alike rest rest') (text : List Char) :
    Alike (text ++ rest) (text ++ rest') := by
  cases text with
  | nil => exact h
  | cons c cs => exact Or.inl rfl

/-- A text starts as it does with more text behind it. -/
theorem alike_append (h : rest ≠ []) (more : List Char) : Alike rest (rest ++ more) := by
  obtain ⟨c, rest, rfl⟩ := List.exists_cons_of_ne_nil h
  exact Or.inl rfl

/-- Nothing is alike to the empty text but itself. -/
theorem Alike.eq_nil (h : Alike [] rest') : rest' = [] := by
  rcases h with h | ⟨h, -⟩
  · exact List.head?_eq_none_iff.1 h
  · cases h

/-- Every character but the number sign is seen for what it is. -/
theorem Alike.exists_cons {c : Char} {cs : List Char} (h : Alike (c :: cs) rest') (hc : c ≠ '#') :
    ∃ more, rest' = c :: more := by
  rcases h with h | ⟨h, -⟩
  · exact List.head?_eq_some_iff.1 h
  · exact absurd (Option.some.inj h) hc

/-- What halts before a text halts before any that starts alike. -/
theorem Alike.halts {x : Lexeme} (h : Alike rest rest') (hx : x.Halts rest) : x.Halts rest' := by
  rcases h with h | ⟨hsign, hline⟩
  · exact hx.congr h
  cases x with
  | comment => exact fun c hc => (Option.some.inj (hline.symm.trans hc)).symm
  | symbol | number =>
    intro c hc
    rw [← Option.some.inj (hline.symm.trans hc)]
    decide
  | string | operator | openScope | closeScope | endLine | openMeta | closeMeta => trivial

/-- A line that can be entered can be entered in front of another text. -/
theorem Lands.change_rest {margin level : Nat} (h : l.Lands margin rest level)
    (hdepth : m.depth = l.depth) (hrest : m.rest = '\n' :: (List.replicate margin ' ' ++ rest'))
    (halike : Alike rest rest') : m.Lands margin rest' level := by
  refine ⟨hrest, ?_⟩
  obtain ⟨-, ⟨rfl, rfl⟩ | ⟨hmargin, hlevel, c, more, rfl, hc⟩⟩ := h
  · exact Or.inl ⟨halike.eq_nil, rfl⟩
  · obtain ⟨more', rfl⟩ := halike.exists_cons hc.2.2.2
    exact Or.inr ⟨hmargin, hdepth ▸ hlevel, c, more', rfl, hc⟩

/-! ## The same step -/

/-- The lexer with another text in front of it, `text` having been passed behind `m`. -/
def moved (l m : Lexer) (text rest' : List Char) : Lexer :=
  { l with rest := rest', position := m.position.advanceAll text }

/-- To be moved leaves the layout alone. -/
@[simp] theorem layout_moved (l m : Lexer) (text rest' : List Char) :
    (l.moved m text rest').layout = l.layout := rfl

/-- A word is read in front of any text that does not go on with it. -/
theorem TokenStep.change_behind (h : l.TokenStep t next) (ht : t.isWritten)
    (hpasses : l.Passes next text) (hlayout : m.layout = l.layout) (hrest : m.rest = text ++ rest')
    (hhalts : t.lexeme.Halts rest') : m.TokenStep ⟨t.lexeme, m.position⟩ (next.moved m text rest') := by
  obtain ⟨here, p, depth, target, ended⟩ := l
  obtain ⟨there, q, _, _, _⟩ := m
  cases hlayout
  obtain rfl : there = text ++ rest' := hrest
  cases h with
  | opens | closes | ends | endsLast | closesLast => cases ht
  | @scans c cs x hat hcs hc hx =>
    obtain rfl : here = c :: cs := hcs
    obtain ⟨more, htaken, -, hscan⟩ := Scan.ofChars_change_rest hx hhalts
    obtain rfl : c :: more = text := by
      rw [← htaken]
      exact List.append_cancel_right ((Scan.taken_append_rest c cs).trans hpasses.1)
    have hstep := @TokenStep.scans ⟨c :: more ++ rest', q, depth, target, ended⟩ c (more ++ rest') x
      hat rfl hc (by rw [hscan])
    rw [hscan] at hstep
    exact hstep

/-- A step that reports a token is taken in front of another text. -/
theorem TokenStep.change_rest (h : l.TokenStep t next) (hpasses : l.Passes next text)
    (hlayout : m.layout = l.layout) (hrest : m.rest = text ++ rest') (halike : Alike next.rest rest') :
    m.TokenStep ⟨t.lexeme, m.position⟩ (next.moved m text rest') := by
  obtain ⟨here, p, depth, target, ended⟩ := l
  obtain ⟨there, q, _, _, _⟩ := m
  cases hlayout
  obtain rfl : there = text ++ rest' := hrest
  have hsplit : here = text ++ next.rest := hpasses.1
  have hword := h
  cases h with
  | opens hlt =>
    -- A mark that needs no text passes none.
    obtain rfl : text = [] := List.append_left_eq_self.1 hsplit.symm
    exact .opens hlt
  | closes hlt =>
    obtain rfl : text = [] := List.append_left_eq_self.1 hsplit.symm
    exact .closes hlt
  | endsLast hat hnil hdepth hopen =>
    obtain rfl : here = [] := hnil
    obtain ⟨rfl, -⟩ := List.append_eq_nil_iff.1 hsplit.symm
    exact .endsLast hat halike.eq_nil hdepth hopen
  | closesLast hat hnil hdepth hended =>
    obtain rfl : here = [] := hnil
    obtain ⟨rfl, -⟩ := List.append_eq_nil_iff.1 hsplit.symm
    exact .closesLast hat halike.eq_nil hdepth hended
  | @ends margin level rest hat hlands hlevel hopen =>
    obtain rfl : '\n' :: List.replicate margin ' ' = text :=
      List.append_cancel_right (hlands.1.symm.trans hsplit)
    exact .ends hat (hlands.change_rest rfl rfl halike) hlevel hopen
  | scans hat hcs hc hx =>
    exact hword.change_behind (Scan.isWritten_of_ok hx) hpasses rfl rfl
      (halike.halts (Scan.spells_and_halts_of_ok hx).2)

/-- A step that reports nothing is taken in front of another text. -/
theorem SilentStep.change_rest (h : l.SilentStep next) (hpasses : l.Passes next text)
    (hlayout : m.layout = l.layout) (hrest : m.rest = text ++ rest') (halike : Alike next.rest rest') :
    m.SilentStep (next.moved m text rest') := by
  obtain ⟨here, p, depth, target, ended⟩ := l
  obtain ⟨there, q, _, _, _⟩ := m
  cases hlayout
  obtain rfl : there = text ++ rest' := hrest
  obtain ⟨hsplit, -⟩ := hpasses
  cases h with
  | @separator c cs hat hcs hc =>
    obtain rfl : [c] = text := List.append_cancel_right (hcs.symm.trans hsplit)
    exact .separator hat rfl hc
  | @blank margin c more hat hcs hc =>
    obtain rfl : '\n' :: List.replicate margin ' ' = text :=
      List.append_cancel_right (hcs.symm.trans hsplit)
    -- A comment may be a newline there, and either makes the line blank.
    obtain ⟨d, more', rfl, hd⟩ : ∃ d more', rest' = d :: more' ∧ (d = '\n' ∨ d = '#') := by
      rcases halike with hhead | ⟨-, hline⟩
      · obtain ⟨more', rfl⟩ := List.head?_eq_some_iff.1 hhead
        exact ⟨c, more', rfl, hc⟩
      · obtain ⟨more', rfl⟩ := List.head?_eq_some_iff.1 hline
        exact ⟨'\n', more', rfl, Or.inl rfl⟩
    exact .blank hat rfl hd
  | @enters margin level rest hat hlands hlevel =>
    obtain rfl : '\n' :: List.replicate margin ' ' = text :=
      List.append_cancel_right (hlands.1.symm.trans hsplit)
    exact .enters hat (hlands.change_rest rfl rfl halike) hlevel

/-! ## The same run -/

/-- A step that reports a token passes some text, perhaps none. -/
theorem TokenStep.exists_passes (h : l.TokenStep t next) : ∃ text, l.Passes next text := by
  rcases h.exists_layout_or_word with ⟨-, gap, -, hpasses⟩ | ⟨-, word, -, -, -, hpasses⟩
  · exact ⟨gap, hpasses⟩
  · exact ⟨word, hpasses⟩

/-- What is passed one after the other is passed in all. -/
theorem Passes.trans {more : List Char} (h : l.Passes mid text) (h' : mid.Passes last more) :
    l.Passes last (text ++ more) :=
  ⟨by rw [h.1, h'.1, List.append_assoc], by rw [h'.2, h.2, Position.advanceAll_append]⟩

/-- A run passes some text. -/
theorem Reads.exists_passes (h : Reads l ts last) : ∃ text, l.Passes last text := by
  induction h with
  | here l => exact ⟨[], rfl, rfl⟩
  | token hstep _ ih =>
    obtain ⟨text, hpasses⟩ := (tokenStep_of_step hstep).exists_passes
    obtain ⟨more, hmore⟩ := ih
    exact ⟨text ++ more, hpasses.trans hmore⟩
  | silent hstep _ ih =>
    obtain ⟨text, -, hpasses⟩ := (silentStep_of_step hstep).exists_layout
    obtain ⟨more, hmore⟩ := ih
    exact ⟨text ++ more, hpasses.trans hmore⟩

/-- A run is made in front of another text, with the same lexemes.  By induction on the run: the text that is
passed is cut into what the first step passes and what the others do. -/
theorem Reads.change_rest (h : Reads l ts last) (hpasses : l.Passes last text)
    (hlayout : m.layout = l.layout) (hrest : m.rest = text ++ rest') (halike : Alike last.rest rest') :
    ∃ us, us.map (·.lexeme) = ts.map (·.lexeme) ∧ Reads m us (last.moved m text rest') := by
  induction h generalizing m text with
  | here l =>
    obtain rfl : text = [] := List.append_left_eq_self.1 hpasses.1.symm
    obtain ⟨there, q, _, _, _⟩ := m
    cases hlayout
    obtain rfl : there = rest' := hrest
    exact ⟨[], rfl, .here _⟩
  | @token l next last t ts hstep hmore ih =>
    have ht := tokenStep_of_step hstep
    obtain ⟨front, hfront⟩ := ht.exists_passes
    obtain ⟨back, hback⟩ := hmore.exists_passes
    obtain rfl : front ++ back = text := List.append_cancel_right ((hfront.trans hback).1.symm.trans
      hpasses.1)
    -- What the first step leaves is alike, since what the others pass is the same.
    have hnext := ht.change_rest hfront hlayout (hrest.trans (List.append_assoc ..))
      (hback.1 ▸ halike.append back)
    obtain ⟨us, hus, hreads⟩ := ih hback (m := next.moved m front (back ++ rest')) rfl rfl halike
    refine ⟨_ :: us, by rw [List.map_cons, List.map_cons, hus], .token hnext.step_eq ?_⟩
    rwa [moved, moved, ← Position.advanceAll_append] at hreads
  | @silent l next last ts hstep hmore ih =>
    have hs := silentStep_of_step hstep
    obtain ⟨front, -, hfront⟩ := hs.exists_layout
    obtain ⟨back, hback⟩ := hmore.exists_passes
    obtain rfl : front ++ back = text := List.append_cancel_right ((hfront.trans hback).1.symm.trans
      hpasses.1)
    have hnext := hs.change_rest hfront hlayout (hrest.trans (List.append_assoc ..))
      (hback.1 ▸ halike.append back)
    obtain ⟨us, hus, hreads⟩ := ih hback (m := next.moved m front (back ++ rest')) rfl rfl halike
    refine ⟨us, hus, .silent hnext.step_eq ?_⟩
    rwa [moved, moved, ← Position.advanceAll_append] at hreads

/-! ## Runs in parts -/

/-- Whatever comes first is the first part of a run to the end. -/
theorem Reads.split (h : Reads l ts last) (hend : last.step = .finished) (hfront : Reads l us mid) :
    ∃ more, ts = us ++ more ∧ Reads mid more last := by
  induction hfront generalizing ts with
  | here => exact ⟨ts, rfl, h⟩
  -- A step does one thing, so both runs go on from the same lexer.
  | token hstep _ ih =>
    cases h with
    | here => cases hend.symm.trans hstep
    | token hstep' hmore =>
      cases hstep.symm.trans hstep'
      obtain ⟨more, rfl, hrun⟩ := ih hmore
      exact ⟨more, rfl, hrun⟩
    | silent hstep' => cases hstep.symm.trans hstep'
  | silent hstep _ ih =>
    cases h with
    | here => cases hend.symm.trans hstep
    | token hstep' => cases hstep.symm.trans hstep'
    | silent hstep' hmore =>
      cases hstep.symm.trans hstep'
      exact ih hmore

/-- At the end the line is at level 0. -/
theorem target_of_finished (h : l.step = .finished) : l.target = 0 := by
  have hat : l.depth = l.target := by
    by_contra hne
    obtain ⟨t, next, ht⟩ := exists_token_of_depth_ne hne
    cases h.symm.trans ht
  rw [← hat, (rest_and_depth_of_finished h).2]

/-- The end of a text is the end for every lexer with the same layout. -/
theorem step_finished_of_layout_eq (h : l.step = .finished) (hlayout : m.layout = l.layout)
    (hrest : m.rest = []) : m.step = .finished := by
  simp only [layout, Prod.mk.injEq] at hlayout
  refine step_finished ?_ ?_ hrest
  · rw [hlayout.1, (rest_and_depth_of_finished h).2]
  · rw [hlayout.2.1, target_of_finished h]

/-- Every token of a run is reported by some step of it. -/
theorem Reads.exists_of_mem (h : Reads l ts last) (ht : t ∈ ts) :
    ∃ front mid next, Reads l front mid ∧ mid.step = .token t next := by
  induction h with
  | here => cases ht
  | token hstep _ ih =>
    rcases List.mem_cons.1 ht with rfl | ht
    · exact ⟨[], _, _, .here _, hstep⟩
    · obtain ⟨front, mid, next, hfront, hmid⟩ := ih ht
      exact ⟨_ :: front, mid, next, .token hstep hfront, hmid⟩
  | silent hstep _ ih =>
    obtain ⟨front, mid, next, hfront, hmid⟩ := ih ht
    exact ⟨front, mid, next, .silent hstep hfront, hmid⟩

/-! ## Other steps -/

/-- The second of two lexers that `R` relates keeps up with the first: whatever the first does in one step,
the second does in any number of steps, and of what the first reports it reports the lexemes in `keep`. -/
structure KeepsUp (keep : Lexeme → Bool) (R : Lexer → Lexer → Prop) : Prop where
  /-- A token is matched by a run that reports it if it is to be kept, and nothing otherwise. -/
  token {l m next : Lexer} {t : Token} (h : R l m) (ht : l.TokenStep t next) :
    ∃ us m', Reads m us m' ∧ us.map (·.lexeme) = [t.lexeme].filter keep ∧ R next m'
  /-- A silent step is matched by a run that reports nothing. -/
  silent {l m next : Lexer} (h : R l m) (hs : l.SilentStep next) : ∃ m', Reads m [] m' ∧ R next m'

/-- What keeps up with every step keeps up with every run. -/
theorem KeepsUp.reads {keep : Lexeme → Bool} {R : Lexer → Lexer → Prop} (hkeeps : KeepsUp keep R)
    (h : Reads l ts last) (hm : R l m) :
    ∃ us m', Reads m us m' ∧ us.map (·.lexeme) = (ts.map (·.lexeme)).filter keep ∧ R last m' := by
  induction h generalizing m with
  | here => exact ⟨[], m, .here m, rfl, hm⟩
  | @token l next last t ts hstep _ ih =>
    obtain ⟨us, mid, hus, hlexemes, hmid⟩ := hkeeps.token hm (tokenStep_of_step hstep)
    obtain ⟨vs, m', hvs, hlexemes', hm'⟩ := ih hmid
    refine ⟨us ++ vs, m', hus.append hvs, ?_, hm'⟩
    rw [List.map_append, hlexemes, hlexemes', ← List.filter_append]
    rfl
  | silent hstep _ ih =>
    obtain ⟨mid, hmore, hmid⟩ := hkeeps.silent hm (silentStep_of_step hstep)
    obtain ⟨us, m', hus, hlexemes, hm'⟩ := ih hmid
    exact ⟨us, m', hmore.append hus, hlexemes, hm'⟩

end Lexer

end EntitySchema
