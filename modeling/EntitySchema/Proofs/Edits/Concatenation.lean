import EntitySchema.Proofs.Edits.FinalNewline
import EntitySchema.Proofs.Lexer.LayoutRule
/-!
  One source behind another.

  Where a text comes to its end, a lexer ends the last line and closes the scopes that are open.  If the text
  ends in a newline, these are the steps that a line without a margin calls for, and they are taken at the
  same places.  So a lexer does not tell such an end from the start of a line.

  1. **More text behind.**  Whatever a lexer reads of the text, it reads with a line behind it that starts
     with the character `c`: from `l` to `last` becomes from `l.extend (c :: cs)` to `last.extend (c :: cs)`
     (`Reads.extend`).  The invariant is `Closing`: the text ends in a newline that is still to be read, or it
     has been read and left no line open at level zero.  Only the steps that leave nothing of the text need a
     look; any other step is told apart by what it passes and by the character behind that, and neither has
     changed (`extend_of_rest`).

  2. **Further down.**  Then the lexer stands before the second text as if it were the first, some lines
     further down (`eq_down_of_finished`), and being further down makes no difference to any step
     (`Reads.down`, `FaultStep.down`).

  The number of lines is that of the newlines in the first source.

  Main statement: `tokenize_append`.
-/

namespace EntitySchema

/-! ## Further down -/

/-- The place with `n` more lines above it. -/
def Position.down (n : Nat) (p : Position) : Position := { p with line := p.line + n }

/-- Lines above move the next line as they move this one. -/
theorem Position.nextLine_down (n : Nat) (p : Position) :
    (p.down n).nextLine = p.nextLine.down n := by
  simp only [down, nextLine, Nat.add_right_comm]

/-- Lines above have no part in how a text is passed. -/
theorem Position.advanceAll_down (n : Nat) (p : Position) (cs : List Char) :
    (p.down n).advanceAll cs = (p.advanceAll cs).down n := by
  induction cs generalizing p with
  | nil => rfl
  | cons c cs ih =>
    have hfirst : (p.down n).advance c = (p.advance c).down n := by
      rw [advance, nextLine_down, advance, apply_ite (down n)]
      rfl
    rw [advanceAll_cons, hfirst, ih, advanceAll_cons]

/-- The token with `n` more lines above it. -/
def Token.down (n : Nat) (t : Token) : Token := { t with position := t.position.down n }

/-- The fault with `n` more lines above it. -/
def LexError.down (n : Nat) (e : LexError) : LexError := { e with position := e.position.down n }

namespace Lexer

/-- The lexer with `n` more lines above it. -/
def down (n : Nat) (l : Lexer) : Lexer := { l with position := l.position.down n }

variable {l next last after : Lexer} {t : Token} {ts : List Token} {e : LexError}
  {text more : List Char}

/-- A lexer further down passes what it passes above. -/
theorem past_down (n : Nat) (l : Lexer) (taken rest : List Char) :
    (l.down n).past taken rest = (l.past taken rest).down n := by
  simp only [past, down, Position.advanceAll_down]

/-- The lexer that passes the same text further down is the next one further down. -/
theorem Passes.moved_down (h : l.Passes next text) (n : Nat) :
    next.moved (l.down n) text next.rest = next.down n := by
  simp only [moved, down, Position.advanceAll_down, h.2]

/-- A token is reported further down as it is above. -/
theorem TokenStep.down (h : l.TokenStep t next) (n : Nat) :
    (l.down n).TokenStep (t.down n) (next.down n) := by
  obtain ⟨text, hpasses⟩ := h.exists_passes
  have hstep := h.change_rest (m := l.down n) hpasses rfl hpasses.1 (Or.inl rfl)
  rw [hpasses.moved_down] at hstep
  rwa [Token.down, h.position_eq]

/-- What is passed over above is passed over further down. -/
theorem SilentStep.down (h : l.SilentStep next) (n : Nat) : (l.down n).SilentStep (next.down n) := by
  obtain ⟨text, -, hpasses⟩ := h.exists_layout
  have hstep := h.change_rest (m := l.down n) hpasses rfl hpasses.1 (Or.inl rfl)
  rwa [hpasses.moved_down] at hstep

/-- A fault above is a fault further down. -/
theorem FaultStep.down (h : l.FaultStep e after) (n : Nat) :
    (l.down n).FaultStep (e.down n) (after.down n) := by
  cases h with
  | tab hat hrest =>
    have hstep := FaultStep.tab (l := l.down n) hat hrest
    rwa [past_down, past_down] at hstep
  | odd hat hrest hc hodd =>
    have hstep := FaultStep.odd (l := l.down n) hat hrest hc hodd
    rwa [past_down, show (l.down n).position.nextLine = l.position.nextLine.down n from
      Position.nextLine_down n l.position] at hstep
  | deep hat hrest hc hdeep =>
    have hstep := FaultStep.deep (l := l.down n) hat hrest hc hdeep
    rwa [past_down] at hstep
  | scans hat hrest hc hsep hx =>
    have hstep := FaultStep.scans (l := l.down n) hat hrest hc hsep hx
    rwa [past_down] at hstep

/-- Further down a run is the same. -/
theorem Reads.down (h : Reads l ts last) (n : Nat) :
    Reads (l.down n) (ts.map (Token.down n)) (last.down n) := by
  induction h with
  | here => exact .here _
  | token hstep _ ih => exact .token ((tokenStep_of_step hstep).down n).step_eq ih
  | silent hstep _ ih => exact .silent ((silentStep_of_step hstep).down n).step_eq ih

/-! ## More text behind -/

/-- The lexer with more text behind its own. -/
def extend (l : Lexer) (more : List Char) : Lexer := { l with rest := l.rest ++ more }

/-- The text ends in a newline, which is still to be read or was the last thing to be read; and in that case
the lexer is at level zero with no line open. -/
def Closing (l : Lexer) : Prop :=
  l.rest.getLast? = some '\n' ∨ (l.rest = [] ∧ l.target = 0 ∧ l.ended = true)

/-- As long as something is left of the text, the newline at its end is. -/
theorem Closing.of_suffix (h : l.Closing) (hsuffix : next.rest <:+ l.rest) (hne : next.rest ≠ []) :
    next.Closing := by
  rcases h with hlast | ⟨hnil, -⟩
  · exact Or.inl (getLast?_of_suffix hsuffix hne hlast)
  · rw [hnil] at hsuffix
    exact absurd (List.suffix_nil.1 hsuffix) hne

/-- Where nothing is left, the lexer is at level zero with no line open. -/
theorem Closing.of_rest_nil (h : l.Closing) (hnil : l.rest = []) : l.target = 0 ∧ l.ended = true := by
  rcases h with hlast | ⟨-, hclosed⟩
  · rw [hnil] at hlast
    cases hlast
  · exact hclosed

/-- What is read of the text is not the last of it, unless that is a newline. -/
theorem Closing.rest_ne_nil {rest : List Char} (h : l.Closing) (hrest : l.rest = text ++ rest)
    (hne : text ≠ []) (hlast : text.getLast? ≠ some '\n') : rest ≠ [] := by
  rintro rfl
  rw [List.append_nil] at hrest
  rcases h with hline | ⟨hnil, -⟩
  · exact hlast (hrest ▸ hline)
  · exact hne (hrest ▸ hnil)

/-- The last line of the text has no margin. -/
theorem Closing.margin_eq_zero {margin level : Nat} (h : l.Closing) (hlands : l.Lands margin [] level) :
    margin = 0 := by
  by_contra hne
  obtain ⟨k, rfl⟩ := Nat.exists_eq_succ_of_ne_zero hne
  refine h.rest_ne_nil hlands.1 (List.cons_ne_nil _ _) ?_ rfl
  rw [List.replicate_succ', ← List.cons_append, List.getLast?_concat]
  decide

/-- Where the text ends behind a newline, a line at level zero may stand. -/
theorem Lands.extend {c : Char} {cs : List Char} (h : l.Lands 0 [] 0) (hc : StartsLine c) :
    (l.extend (c :: cs)).Lands 0 (c :: cs) 0 := by
  refine ⟨?_, Or.inr ⟨rfl, Nat.zero_le _, c, cs, rfl, hc⟩⟩
  show l.rest ++ c :: cs = _
  rw [h.1]
  rfl

/-- The lexer that passes the same text with more behind it is the next one with more behind it. -/
theorem Passes.moved_extend (h : l.Passes next text) (more : List Char) :
    next.moved (l.extend more) text (next.rest ++ more) = next.extend more := by
  simp only [moved, Lexer.extend, h.2]

/-- A step that leaves something of the text is taken with more text behind it. -/
theorem TokenStep.extend_of_rest (h : l.TokenStep t next) (hne : next.rest ≠ []) (more : List Char) :
    (l.extend more).TokenStep t (next.extend more) := by
  obtain ⟨text, hpasses⟩ := h.exists_passes
  have hrest : (l.extend more).rest = text ++ (next.rest ++ more) := by
    rw [Lexer.extend, hpasses.1, List.append_assoc]
  have hstep := h.change_rest (m := l.extend more) hpasses rfl hrest (alike_append hne more)
  rw [hpasses.moved_extend] at hstep
  rwa [← show (⟨t.lexeme, (l.extend more).position⟩ : Token) = t by rw [Lexer.extend, ← h.position_eq]]

/-- So is a silent step. -/
theorem SilentStep.extend_of_rest (h : l.SilentStep next) (hne : next.rest ≠ []) (more : List Char) :
    (l.extend more).SilentStep (next.extend more) := by
  obtain ⟨text, -, hpasses⟩ := h.exists_layout
  have hrest : (l.extend more).rest = text ++ (next.rest ++ more) := by
    rw [Lexer.extend, hpasses.1, List.append_assoc]
  have hstep := h.change_rest (m := l.extend more) hpasses rfl hrest (alike_append hne more)
  rwa [hpasses.moved_extend] at hstep

/-- A step that reports a token is taken in front of a line without a margin as it is at the end. -/
theorem TokenStep.extend {c : Char} {cs : List Char} (h : l.TokenStep t next) (hl : l.Closing)
    (hc : StartsLine c) :
    (l.extend (c :: cs)).TokenStep t (next.extend (c :: cs)) ∧ next.Closing := by
  by_cases hne : next.rest ≠ []
  · exact ⟨h.extend_of_rest hne _, hl.of_suffix h.rest_suffix hne⟩
  -- Behind the last newline there is nothing left to do but to close scopes.
  have hnil : next.rest = [] := not_not.1 hne
  cases h with
  | opens hlt =>
    obtain ⟨hzero, -⟩ := hl.of_rest_nil hnil
    omega
  | closes hlt => exact ⟨.closes hlt, hl⟩
  | @ends margin level rest hat hlands hlevel hopen =>
    obtain rfl : rest = [] := hnil
    obtain rfl := hl.margin_eq_zero hlands
    obtain rfl := hlands.level_eq_zero
    exact ⟨.ends hat (hlands.extend hc) hlevel hopen, Or.inr ⟨rfl, rfl, rfl⟩⟩
  | endsLast hat hrest hdepth hopen =>
    cases hopen.symm.trans (hl.of_rest_nil hrest).2
  | closesLast hat hrest hdepth =>
    exact absurd (hat.trans (hl.of_rest_nil hrest).1) hdepth
  | @scans d ds x hat hrest hd hx =>
    obtain ⟨more, htaken⟩ := Scan.exists_taken d ds
    refine absurd hnil (hl.rest_ne_nil (hrest.trans (Scan.taken_append_rest d ds).symm) ?_
      (Scan.getLast?_taken_ne hx))
    rw [htaken]
    exact List.cons_ne_nil d more

/-- So is a step that reports nothing. -/
theorem SilentStep.extend {c : Char} {cs : List Char} (h : l.SilentStep next) (hl : l.Closing)
    (hc : StartsLine c) :
    (l.extend (c :: cs)).SilentStep (next.extend (c :: cs)) ∧ next.Closing := by
  by_cases hne : next.rest ≠ []
  · exact ⟨h.extend_of_rest hne _, hl.of_suffix h.rest_suffix hne⟩
  have hnil : next.rest = [] := not_not.1 hne
  cases h with
  | @separator d ds hat hrest hd =>
    have hfirst : l.rest = [d] ++ ds := hrest
    refine absurd hnil (hl.rest_ne_nil hfirst (List.cons_ne_nil d []) ?_)
    intro hline
    obtain rfl : d = '\n' := Option.some.inj hline
    cases hd
  | blank => cases hnil
  | @enters margin level rest hat hlands hlevel =>
    obtain rfl : rest = [] := hnil
    obtain rfl := hl.margin_eq_zero hlands
    obtain rfl := hlands.level_eq_zero
    -- No line is less deep than level zero, so none was open.
    have hended := hlevel.resolve_left (Nat.not_lt_zero _)
    exact ⟨.enters hat (hlands.extend hc) hlevel, Or.inr ⟨rfl, rfl, hended⟩⟩

/-- What is read of the text is read with a line behind it. -/
theorem Reads.extend {c : Char} {cs : List Char} (h : Reads l ts last) (hl : l.Closing)
    (hc : StartsLine c) : Reads (l.extend (c :: cs)) ts (last.extend (c :: cs)) ∧ last.Closing := by
  induction h with
  | here => exact ⟨.here _, hl⟩
  | token hstep _ ih =>
    obtain ⟨hfirst, hnext⟩ := (tokenStep_of_step hstep).extend hl hc
    obtain ⟨hmore, hlast⟩ := ih hnext
    exact ⟨.token hfirst.step_eq hmore, hlast⟩
  | silent hstep _ ih =>
    obtain ⟨hfirst, hnext⟩ := (silentStep_of_step hstep).extend hl hc
    obtain ⟨hmore, hlast⟩ := ih hnext
    exact ⟨.silent hfirst.step_eq hmore, hlast⟩

end Lexer

/-! ## Whole sources -/

namespace SourceText

/-- Only carriage returns and a byte-order mark are left out, and no newline. -/
theorem count_visible (cs : List Char) : (visible cs).count '\n' = cs.count '\n' := by
  have hreturns : ∀ ds : List Char, (withoutReturns ds).count '\n' = ds.count '\n' := fun ds =>
    List.count_filter (by decide)
  rw [visible, hreturns]
  cases cs with
  | nil => rfl
  | cons c cs =>
    rw [dropMark]
    split
    · next hmark => rw [hmark, List.count_cons_of_ne (by decide)]
    · rfl

/-- The visible text of a source that ends in a newline ends in one, too. -/
theorem getLast?_visible_of_getLast? {cs : List Char} (h : cs.getLast? = some '\n') :
    (visible cs).getLast? = some '\n' := by
  obtain ⟨front, rfl⟩ := List.getLast?_eq_some_iff.1 h
  apply getLast?_visible
  rw [withoutReturns_append]
  exact List.getLast?_concat

/-- A letter is visible in front of everything. -/
theorem exists_visible_of_isAlpha {cs : List Char} (h : ∃ c ∈ cs.head?, c.isAlpha) :
    visible cs = withoutReturns cs ∧ ∃ c more, visible cs = c :: more ∧ Lexer.StartsLine c := by
  obtain ⟨c, hc, hletter⟩ := h
  obtain ⟨more, rfl⟩ := List.head?_eq_some_iff.1 hc
  have hplain : c ≠ '\r' ∧ c ≠ byteOrderMark := by
    constructor <;> rintro rfl <;> exact absurd hletter (by decide)
  have hvisible : visible (c :: more) = withoutReturns (c :: more) := by
    rw [visible, dropMark, if_neg hplain.2]
  refine ⟨hvisible, c, withoutReturns more, ?_, ?_⟩
  · rw [hvisible, withoutReturns_cons_of_ne hplain.1]
  · obtain ⟨hspace, htab, -, hline, hsign⟩ :=
      Scan.startsWord_of_isAlphanum (show c.isAlphanum by simp [Char.isAlphanum, hletter])
    exact ⟨hspace, htab, hline, hsign⟩

/-- Of two sources, one behind the other, the second starting with a letter, all that is visible is visible
in one of them. -/
theorem visible_append_of_isAlpha (front : List Char) {back : List Char}
    (h : ∃ c ∈ back.head?, c.isAlpha) : visible (front ++ back) = visible front ++ visible back := by
  cases front with
  | nil => rfl
  | cons c front =>
    rw [visible_append (List.cons_ne_nil c front), (exists_visible_of_isAlpha h).1]

end SourceText

namespace Lexer

variable {source other : String} {last : Lexer} {ts : List Token}

/-- A lexer in front of a source that is empty or ends in a newline. -/
theorem closing_ofSource (h : source = "" ∨ source.toList.getLast? = some '\n') :
    (ofSource source).Closing := by
  rcases h with rfl | hlast
  · exact Or.inr ⟨rfl, rfl, rfl⟩
  · exact Or.inl (SourceText.getLast?_visible_of_getLast? hlast)

/-- Behind a text that ends in a newline the next line starts. -/
theorem position_of_closing (h : (ofSource source).Closing) :
    Position.start.advanceAll (ofSource source).rest =
      Position.start.down (source.toList.count '\n') := by
  rw [Position.advanceAll_start, Position.behind, rest_ofSource, SourceText.count_visible]
  have hcolumn : ((SourceText.visible source.toList).reverse.takeWhile (· ≠ '\n')).length = 0 := by
    rcases h with hlast | ⟨hnil, -⟩
    · obtain ⟨front, hfront⟩ := List.getLast?_eq_some_iff.1 hlast
      rw [← rest_ofSource, hfront, List.reverse_append]
      rfl
    · rw [← rest_ofSource, hnil]
      rfl
  rw [hcolumn, Nat.add_comm]
  rfl

/-- A lexer that has read a source up to its last newline is as good as new, but some lines further down. -/
theorem eq_down_of_finished (hreads : Reads (ofSource source) ts last) (hend : last.step = .finished)
    (hl : (ofSource source).Closing) (hlast : last.Closing) :
    last = (ofText []).down (source.toList.count '\n') := by
  obtain ⟨hrest, hdepth⟩ := rest_and_depth_of_finished hend
  obtain ⟨htarget, hended⟩ := hlast.of_rest_nil hrest
  obtain ⟨text, hpasses⟩ := hreads.exists_passes
  have hplace : last.position = Position.start.down (source.toList.count '\n') := by
    rw [← position_of_closing hl, hpasses.1, hrest, List.append_nil, hpasses.2]
    rfl
  obtain ⟨rest, position, depth, target, ended⟩ := last
  simp only at hrest hdepth htarget hended hplace
  subst hrest hdepth htarget hended hplace
  rfl

/-- What is read of a source that ends in a newline is read with another source behind it, if that starts with
a letter.  Then the lexer stands before the other source as if it were the first, but further down, and no line
was left open. -/
theorem reads_append (hreads : Reads (ofSource source) ts last) (hend : last.step = .finished)
    (hsource : source = "" ∨ source.toList.getLast? = some '\n')
    (hother : ∃ c ∈ other.toList.head?, c.isAlpha) :
    Reads (ofSource (source ++ other)) ts ((ofSource other).down (source.toList.count '\n')) ∧
      last.ended = true := by
  have hl := closing_ofSource hsource
  obtain ⟨-, c, more, hvisible, hc⟩ := SourceText.exists_visible_of_isAlpha hother
  obtain ⟨hlonger, hlast⟩ : Reads ((ofSource source).extend (c :: more)) ts (last.extend (c :: more)) ∧
      last.Closing := hreads.extend hl hc
  -- With the second text behind it, the lexer on the first is the lexer on both.
  have hstart : (ofSource source).extend (c :: more) = ofSource (source ++ other) := by
    rw [← hvisible, ofSource, ofSource, String.toList_append,
      SourceText.visible_append_of_isAlpha _ hother]
    rfl
  -- At its end it stands where the second starts, so many lines further down.
  have hfinish : last.extend (c :: more) = (ofSource other).down (source.toList.count '\n') := by
    rw [eq_down_of_finished hreads hend hl hlast, ofSource, hvisible]
    rfl
  rw [hstart, hfinish] at hlonger
  exact ⟨hlonger, (hlast.of_rest_nil (rest_and_depth_of_finished hend).1).2⟩

end Lexer

/-- A `source` that is empty or ends in a newline and has the tokens `ts`, with `other` behind it, which
starts with a letter, is read as the tokens of the first and then those of the second, which stand below the
lines of the first.  If the second has a fault `e`, so has the whole, below the lines of the first. -/
theorem tokenize_append {source other : String} {ts : List Token}
    (hsource : source = "" ∨ source.toList.getLast? = some '\n')
    (hother : ∃ c ∈ other.toList.head?, c.isAlpha) (h : tokenize source = .ok ts) :
    (∀ us, tokenize other = .ok us → tokenize (source ++ other) =
      .ok (ts ++ us.map (Token.down (source.toList.count '\n')))) ∧
    ∀ e, tokenize other = .error e → tokenize (source ++ other) =
      .error (e.down (source.toList.count '\n')) := by
  obtain ⟨last, hreads, hend⟩ := Lexer.tokenize_eq_ok_iff.1 h
  obtain ⟨hfront, -⟩ := Lexer.reads_append hreads hend hsource hother
  refine ⟨fun us hus => ?_, fun e he => ?_⟩
  · obtain ⟨last', hmore, hend'⟩ := Lexer.tokenize_eq_ok_iff.1 hus
    have hdown : (last'.down (source.toList.count '\n')).step = .finished :=
      Lexer.step_finished_of_layout_eq hend' rfl (Lexer.rest_and_depth_of_finished hend').1
    exact Lexer.tokenize_eq_ok_iff.2 ⟨_, hfront.append (hmore.down _), hdown⟩
  · obtain ⟨us, last', after, hmore, hfault⟩ := Lexer.tokenize_eq_error_iff.1 he
    exact Lexer.tokenize_eq_error_iff.2 ⟨_, _, _, hfront.append (hmore.down _),
      ((Lexer.faultStep_of_step hfault).down _).step_eq⟩

/-- A scope that is open at the end, with a string over two lines in it; behind it a line with a comment, or a
line with an odd margin below it. -/
theorem tokenize_append_openScope :
    tokenize ("a\n  'x\n'\n" ++ "b # c") = .ok ([⟨.symbol "a", ⟨1, 1⟩⟩, ⟨.openScope, ⟨2, 3⟩⟩,
      ⟨.string "x\n", ⟨2, 3⟩⟩, ⟨.endLine, ⟨3, 2⟩⟩, ⟨.closeScope, ⟨4, 1⟩⟩] ++
        [⟨.symbol "b", ⟨4, 1⟩⟩, ⟨.comment "c", ⟨4, 3⟩⟩]) ∧
      tokenize ("a\n  'x\n'\n" ++ "b\n   c") = .error ⟨.oddIndent 3, ⟨5, 1⟩⟩ := by
  have h : tokenize "a\n  'x\n'\n" = .ok [⟨.symbol "a", ⟨1, 1⟩⟩, ⟨.openScope, ⟨2, 3⟩⟩,
      ⟨.string "x\n", ⟨2, 3⟩⟩, ⟨.endLine, ⟨3, 2⟩⟩, ⟨.closeScope, ⟨4, 1⟩⟩] := by
    decide +kernel
  have hline : "a\n  'x\n'\n".toList.getLast? = some '\n' := by decide +kernel
  obtain ⟨hmore, -⟩ := @tokenize_append _ "b # c" _ (Or.inr hline)
    ⟨'b', by decide +kernel, by decide⟩ h
  obtain ⟨-, hfault⟩ := @tokenize_append _ "b\n   c" _ (Or.inr hline)
    ⟨'b', by decide +kernel, by decide⟩ h
  exact ⟨hmore [⟨.symbol "b", ⟨1, 1⟩⟩, ⟨.comment "c", ⟨1, 3⟩⟩] (by decide +kernel),
    hfault ⟨.oddIndent 3, ⟨2, 1⟩⟩ (by decide +kernel)⟩

end EntitySchema
