import EntitySchema.Proofs.Edits.Regions
import EntitySchema.Proofs.Lexer.LayoutRule
import EntitySchema.Proofs.Lexer.Transfer
import EntitySchema.Proofs.Meaning
/-!
  Comments are transparent.

  Take a source that ends in a newline and delete its comments, from the number sign up to the newline that
  ends the line. What is left is read as before: the same lexemes apart from the comments, hence the same hash
  and the same protocol, or else the same fault in the same place.

  The lexer of what is left, `m`, is related to the lexer of the source, `l`, by `Uncommented l m`:

      m.layout = l.layout     and     m.rest = withoutComments l.rest

  and the two stand in the same place, unless a newline comes next, since deleting a comment moves that
  newline alone.  They are on the same line in any case, so behind the newline they stand in one place again
  (`advanceAll_newline`).

  The relation is a simulation (`keepsUp_uncommented`).
  * A comment lets the second lexer wait (`Uncommented.comment`).
  * Every other step it takes itself.  What the step passes is code, so it stays; and what the step saw behind
    that is the same, or was a comment and is now a newline, which makes no difference
    (`alike_withoutComments`).

  A fault is found where it was, since a faulty lexeme is code, or a string that has no end
  (`Scan.exists_of_error`), and a fault in a margin is told from the margin and the character behind it.  Text
  that ends in a newline is needed for a comment in the last line: without the newline there would be nothing
  to see in its place.

  Main statement: `tokenize_stripped`.
-/

namespace EntitySchema

namespace SourceText

variable {cs : List Char}

/-- A source without its comments. -/
def stripped (source : String) : String := String.ofList (withoutComments source.toList)

/-- What is visible of the source without comments is what is visible of the source, without comments. -/
theorem visible_stripped (source : String) :
    visible (stripped source).toList = withoutComments (visible source.toList) := by
  rw [stripped, String.toList_ofList, visible_withoutComments]

/-- Code in front is kept as it is. -/
theorem withoutComments_append {front : List Char} (h : IsCode front) (back : List Char) :
    withoutComments (front ++ back) = front ++ withoutComments back := by
  rw [withoutComments, withoutCommentsFrom_append, h.1, h.2, withoutComments]

/-- A comment is deleted up to the newline behind it. -/
theorem withoutComments_comment {line rest : List Char} (hline : '\n' ∉ line)
    (hrest : ∀ c ∈ rest.head?, c = '\n') :
    withoutComments ('#' :: line ++ rest) = withoutComments rest := by
  obtain ⟨hafter, hnone⟩ := comment_text hline
  rw [withoutComments, withoutCommentsFrom_append, hafter, hnone, List.nil_append]
  cases rest with
  | nil => rfl
  | cons c rest =>
    obtain rfl : c = '\n' := hrest c rfl
    rfl

/-- Text that ends in a newline starts alike without its comments: with the same character, or with a newline
in place of a number sign. -/
theorem alike_withoutComments (h : ∀ c ∈ cs.getLast?, c = '\n') :
    Lexer.Alike cs (withoutComments cs) := by
  cases cs with
  | nil => exact Or.inl rfl
  | cons c cs =>
    by_cases hsign : c = '#'
    · subst hsign
      -- A comment at the front is left out up to its newline, which is as good as the comment.
      have hmem : '\n' ∈ '#' :: cs := by
        have hlast := List.getLast?_eq_some_getLast (List.cons_ne_nil '#' cs)
        have hin := List.getLast_mem (List.cons_ne_nil '#' cs)
        rwa [h _ hlast] at hin
      obtain ⟨line, back, rfl, hline⟩ := List.eq_append_cons_of_mem
        (List.mem_of_ne_of_mem (by decide) hmem)
      rw [← List.cons_append, withoutComments_comment hline (by simp)]
      exact Or.inr ⟨rfl, rfl⟩
    · have hnext : Region.code.next c ≠ .comment := by
        rw [Region.next, if_neg hsign]
        split <;> simp
      rw [withoutComments, withoutCommentsFrom, if_neg hnext]
      exact Or.inl rfl

end SourceText

/-! ## Faults -/

namespace Scan

open SourceText

variable {c : Char} {cs : List Char} {fault : LexFault}

/-- The characters that a number is read from are plain. -/
theorem isPlain_of_mem_number (hc : c.isDigit || c = '-') :
    ∀ d ∈ c :: cs.takeWhile Char.isDigit, IsPlain d := by
  intro d hd
  refine isPlain_of_isSymbolChar ?_
  rcases List.mem_cons.1 hd with rfl | hd
  · simp only [Bool.or_eq_true, decide_eq_true_eq] at hc
    rcases hc with hdigit | rfl
    · simp [isSymbolChar, Char.isAlphanum, hdigit]
    · decide
  · have hdigit := List.mem_takeWhile_imp hd
    simp [isSymbolChar, Char.isAlphanum, hdigit]

/-- A number is read from its digits alone. -/
theorem result_number_change_rest {rest' : List Char}
    (halike : Lexer.Alike (cs.dropWhile Char.isDigit) rest') :
    (number c (cs.takeWhile Char.isDigit ++ rest')).result = (number c cs).result := by
  have hhalts : (Lexeme.number 0).Halts (cs.dropWhile Char.isDigit) := head?_dropWhile Char.isDigit cs
  obtain ⟨htake, -⟩ := span_append (w := cs.takeWhile Char.isDigit)
    (fun d hd => List.mem_takeWhile_imp hd) (halike.halts hhalts)
  simp only [number, htake]

/-- A faulty lexeme is code, or a string that has no end.  It stays at fault if what stands behind it is
changed for text that starts alike. -/
theorem exists_of_error (h : (ofChars c cs).result = .error fault) :
    ∃ text rest, cs = text ++ rest ∧ withoutCommentsFrom .code (c :: text) = c :: text ∧
      (Region.code.after (c :: text) = .code ∨ rest = []) ∧
      ∀ rest', Lexer.Alike rest rest' → (ofChars c (text ++ rest')).result = .error fault := by
  unfold ofChars at h
  split at h
  · cases h
  next hsign =>
  split at h
  · cases h
  next halpha =>
  split at h
  · next hnumber =>
    obtain ⟨hafter, hkept⟩ := isCode_of_isPlain (isPlain_of_mem_number hnumber)
    refine ⟨cs.takeWhile Char.isDigit, cs.dropWhile Char.isDigit,
      List.takeWhile_append_dropWhile.symm, hkept, Or.inl hafter, fun rest' halike => ?_⟩
    rw [ofChars, if_neg hsign, if_neg halpha, if_pos hnumber, result_number_change_rest halike]
    exact h
  next hnumber =>
  split at h
  · next hquote =>
    -- A string that never closes goes on to the end of the text, and all of it is string.
    refine ⟨cs, [], (List.append_nil cs).symm,
      (open_string_text hquote (not_mem_of_string_error h)).2, Or.inr rfl, fun rest' halike => ?_⟩
    rw [halike.eq_nil, List.append_nil, ofChars, if_neg hsign, if_neg halpha, if_neg hnumber,
      if_pos hquote]
    exact h
  next hquote =>
  have hplain : ∀ d ∈ [c], IsPlain d := fun d hd => List.mem_singleton.1 hd ▸ ⟨hsign, hquote⟩
  obtain ⟨hafter, hkept⟩ := isCode_of_isPlain hplain
  refine ⟨[], cs, rfl, hkept, Or.inl hafter, fun rest' _ => ?_⟩
  rw [ofChars, if_neg hsign, if_neg halpha, if_neg hnumber, if_neg hquote]
  exact h

end Scan

namespace Lexer

open SourceText

variable {l m next after : Lexer} {t : Token} {ts : List Token} {text : List Char} {e : LexError}

/-! ## A lexer of what is left -/

/-- The second lexer reads what the first does, without the comments.  The text in front of the first one ends
in a newline, if there is any left. -/
structure Uncommented (l m : Lexer) : Prop where
  layout_eq : m.layout = l.layout
  rest_eq : m.rest = withoutComments l.rest
  newline : ∀ c ∈ l.rest.getLast?, c = '\n'
  line_eq : m.position.line = l.position.line
  position_eq : l.rest.head? ≠ some '\n' → m.position = l.position

/-- The place behind what is passed. -/
theorem position_past (l : Lexer) (taken rest : List Char) :
    (l.past taken rest).position = l.position.advanceAll taken := rfl

/-- A comment leaves the layout alone. -/
theorem TokenStep.layout_of_isComment (h : l.TokenStep t next) (ht : t.lexeme.isComment) :
    next.layout = l.layout := by
  cases h with
  | opens | closes | ends | endsLast | closesLast => cases ht
  | scans =>
    have hcomment : Lexeme.isComment _ = true := ht
    simp [layout, past, hcomment]

namespace Uncommented

/-- Behind a newline the two lexers stand in one place. -/
theorem advanceAll_newline (h : Uncommented l m) (cs : List Char) :
    m.position.advanceAll ('\n' :: cs) = l.position.advanceAll ('\n' :: cs) := by
  have hnext : m.position.advance '\n' = l.position.advance '\n' :=
    congrArg (fun line => (⟨line + 1, 1⟩ : Position)) h.line_eq
  rw [Position.advanceAll_cons, Position.advanceAll_cons, hnext]

/-- Code that the first lexer passes is in front of the second one, too. -/
theorem rest_eq_append (h : Uncommented l m) (hpasses : l.Passes next text) (htext : IsCode text) :
    m.rest = text ++ withoutComments next.rest := by
  rw [h.rest_eq, hpasses.1, withoutComments_append htext]

/-- All that is left ends in a newline. -/
theorem newline_of_append {front back : List Char} (h : Uncommented l m) (hrest : l.rest = front ++ back) :
    ∀ c ∈ back.getLast?, c = '\n' := fun c hc =>
  h.newline c (hrest ▸ List.mem_getLast?_append_of_mem_getLast? hc)

/-- Behind a newline and a margin the same character starts the line. -/
theorem exists_line {margin : Nat} {c : Char} {more : List Char} (h : Uncommented l m)
    (hrest : l.rest = '\n' :: (List.replicate margin ' ' ++ c :: more)) (hc : c ≠ '#') :
    ∃ more', m.rest = '\n' :: (List.replicate margin ' ' ++ c :: more') := by
  rw [← List.cons_append] at hrest
  obtain ⟨more', hmore⟩ := (alike_withoutComments (h.newline_of_append hrest)).exists_cons hc
  refine ⟨more', ?_⟩
  rw [h.rest_eq, hrest, withoutComments_append (isCode_of_isLayout isLayout_of_mem_margin), hmore]
  rfl

/-- Both pass the same code. -/
theorem moved (h : Uncommented l m) (hpasses : l.Passes next text) :
    Uncommented next (next.moved m text (withoutComments next.rest)) where
  layout_eq := rfl
  rest_eq := rfl
  newline := h.newline_of_append hpasses.1
  line_eq := by
    rw [hpasses.2, Position.line_advanceAll, ← h.line_eq]
    exact Position.line_advanceAll _ _
  position_eq hhead := by
    rw [hpasses.2]
    cases text with
    | nil => exact h.position_eq (hpasses.1 ▸ hhead)
    | cons c cs =>
      -- A newline makes up for the columns that were left out.
      by_cases hc : c = '\n'
      · subst hc
        exact h.advanceAll_newline cs
      · have hplace := h.position_eq (by rw [hpasses.1]; simpa using hc)
        exact congrArg (fun p => p.advanceAll (c :: cs)) hplace

/-- The second lexer waits while the first passes a comment. -/
theorem comment (h : Uncommented l m) (ht : l.TokenStep t next) (hcomment : t.lexeme.isComment) :
    Uncommented next m := by
  have hlayout := ht.layout_of_isComment hcomment
  rcases ht.exists_layout_or_word with ⟨hmark, -⟩ | ⟨-, word, hspells, hhalts, -, hpasses⟩
  · simp [Token.isWritten, hcomment] at hmark
  obtain ⟨x, place⟩ := t
  cases hspells with
  | @comment line hline =>
    -- The text ends in a newline, so there is one behind the comment.
    have hrest : next.rest.head? = some '\n' := by
      cases hnext : next.rest with
      | nil =>
        have hlast := List.getLast?_eq_some_getLast (List.cons_ne_nil '#' line)
        have hend := h.newline _ (by rw [hpasses.1, hnext, List.append_nil]; exact hlast)
        have hmem := List.getLast_mem (List.cons_ne_nil '#' line)
        rw [hend] at hmem
        exact absurd (List.mem_of_ne_of_mem (by decide) hmem) hline
      | cons c rest => rw [hhalts c (by rw [hnext]; rfl)]; rfl
    refine ⟨h.layout_eq.trans hlayout.symm, ?_, h.newline_of_append hpasses.1, ?_,
      fun hhead => absurd hrest hhead⟩
    · rw [h.rest_eq, hpasses.1, withoutComments_comment hline hhalts]
    · rw [hpasses.2, Position.line_advanceAll_of_not_mem (by simpa using hline), h.line_eq]
  | symbol | number | negative | string | dot | openMeta | closeMeta => cases hcomment

end Uncommented

/-- A lexer keeps up with another one without the comments. -/
theorem keepsUp_uncommented : KeepsUp (fun x => !x.isComment) Uncommented where
  token {l m next t} h ht := by
    by_cases hcomment : t.lexeme.isComment
    · exact ⟨[], m, .here m, by simp [hcomment], h.comment ht hcomment⟩
    · obtain ⟨text, htext, hpasses⟩ : ∃ text, IsCode text ∧ l.Passes next text := by
        rcases ht.exists_layout_or_word with ⟨-, gap, hgap, hpasses⟩ |
          ⟨hwritten, word, hspells, -, -, hpasses⟩
        · exact ⟨gap, isCode_of_isLayout hgap, hpasses⟩
        · have hcontent : t.lexeme.isContent := by simpa [Token.isWritten, hcomment] using hwritten
          exact ⟨word, isCode_of_spells hcontent hspells, hpasses⟩
      have hstep := ht.change_rest hpasses h.layout_eq (h.rest_eq_append hpasses htext)
        (alike_withoutComments (h.newline_of_append hpasses.1))
      exact ⟨_, _, .one hstep.step_eq, by simp [hcomment], h.moved hpasses⟩
  silent {l m next} h hs := by
    obtain ⟨gap, hgap, hpasses⟩ := hs.exists_layout
    have hstep := hs.change_rest hpasses h.layout_eq
      (h.rest_eq_append hpasses (isCode_of_isLayout hgap))
      (alike_withoutComments (h.newline_of_append hpasses.1))
    exact ⟨_, .pass hstep.step_eq, h.moved hpasses⟩

/-- Where the first lexer finds a fault, the second one finds it too, in the same place. -/
theorem Uncommented.exists_faultStep (h : Uncommented l m) (hf : l.FaultStep e after) :
    ∃ after', m.FaultStep e after' := by
  have hlayout := h.layout_eq
  simp only [layout, Prod.mk.injEq] at hlayout
  obtain ⟨hdepth, htarget, -⟩ := hlayout
  cases hf with
  -- Before a newline the two lexers differ in their columns at most, and behind it not even there.
  | @tab margin more hat hrest =>
    obtain ⟨more', hrest'⟩ := h.exists_line hrest (by decide)
    have hstep := FaultStep.tab (by rw [hdepth, htarget, hat]) hrest'
    rw [position_past, h.advanceAll_newline] at hstep
    exact ⟨_, hstep⟩
  | @odd margin c more hat hrest hc hodd =>
    obtain ⟨more', hrest'⟩ := h.exists_line hrest hc.2.2.2
    have hstep := FaultStep.odd (by rw [hdepth, htarget, hat]) hrest' hc hodd
    rw [Position.nextLine, h.line_eq] at hstep
    exact ⟨_, hstep⟩
  | @deep level c more hat hrest hc hdeep =>
    obtain ⟨more', hrest'⟩ := h.exists_line hrest hc.2.2.2
    have hstep := FaultStep.deep (by rw [hdepth, htarget, hat]) hrest' hc (by rwa [hdepth])
    rw [position_past, h.advanceAll_newline, hdepth] at hstep
    exact ⟨_, hstep⟩
  | @scans c cs fault hat hrest hc hsep hx =>
    -- What makes the scan fail holds no comment, so it is there still.
    obtain ⟨text, rest, rfl, hkept, hafter, hscan⟩ := Scan.exists_of_error hx
    have hrest' : m.rest = c :: (text ++ withoutComments rest) := by
      rw [h.rest_eq, hrest, ← List.cons_append, withoutComments, withoutCommentsFrom_append, hkept,
        List.cons_append]
      rcases hafter with hcode | rfl
      · rw [hcode, withoutComments]
      · rfl
    have hnewline := h.newline_of_append (show l.rest = (c :: text) ++ rest from hrest)
    have hstep := FaultStep.scans (by rw [hdepth, htarget, hat]) hrest' hc hsep
      (hscan _ (alike_withoutComments hnewline))
    rw [h.position_eq (by rw [hrest]; simpa using hc)] at hstep
    exact ⟨_, hstep⟩

/-- Where nothing is left for the first lexer nothing is left for the second. -/
theorem Uncommented.finished (h : Uncommented l m) (hend : l.step = .finished) :
    m.step = .finished :=
  step_finished_of_layout_eq hend h.layout_eq
    (by rw [h.rest_eq, (rest_and_depth_of_finished hend).1]; rfl)

/-- In front of a text the two lexers are related. -/
theorem uncommented_ofText {cs : List Char} (h : ∀ c ∈ cs.getLast?, c = '\n') :
    Uncommented (ofText cs) (ofText (withoutComments cs)) :=
  ⟨rfl, rfl, h, rfl, fun _ => rfl⟩

/-- In front of a source that ends in a newline they are, too. -/
theorem uncommented_ofSource {source : String} (h : source.toList.getLast? = some '\n') :
    Uncommented (ofSource source) (ofSource (stripped source)) := by
  have hvisible : (withoutReturns source.toList).getLast? = some '\n' := by
    obtain ⟨front, hfront⟩ := List.getLast?_eq_some_iff.1 h
    rw [hfront, withoutReturns_append]
    exact List.getLast?_concat
  rw [ofSource, ofSource, visible_stripped]
  exact uncommented_ofText fun c hc =>
    (Option.some.inj ((getLast?_visible hvisible).symm.trans hc)).symm

end Lexer

/-- Comments are transparent in a `source` that ends in a newline.  Without them, as `SourceText.stripped
source`, it has the same fault `e` in the same place, or else its tokens `us` are the tokens `ts` of the
source apart from the comments, and their hash is the same.  Every `host` reads both sources as the same
protocol `r`, if at all. -/
theorem tokenize_stripped {source : String} (h : source.toList.getLast? = some '\n') :
    (∀ e, tokenize source = .error e → tokenize (SourceText.stripped source) = .error e) ∧
    (∀ ts, tokenize source = .ok ts → ∃ us, tokenize (SourceText.stripped source) = .ok us ∧
      us.map (·.lexeme) = Lexeme.withoutComments (ts.map (·.lexeme)) ∧
      contentHash us = contentHash ts) ∧
    ∀ (host : HostTypes) (r : Protocol),
      parse host source = .ok r ↔ parse host (SourceText.stripped source) = .ok r := by
  have hstart := Lexer.uncommented_ofSource h
  have hfault : ∀ e, tokenize source = .error e → tokenize (SourceText.stripped source) = .error e := by
    intro e he
    obtain ⟨ts, last, after, hreads, hstep⟩ := Lexer.tokenize_eq_error_iff.1 he
    obtain ⟨us, last', hreads', -, hlast⟩ := Lexer.keepsUp_uncommented.reads hreads hstart
    obtain ⟨after', hfault⟩ := hlast.exists_faultStep (Lexer.faultStep_of_step hstep)
    exact Lexer.tokenize_eq_error_iff.2 ⟨us, last', after', hreads', hfault.step_eq⟩
  have hok : ∀ ts, tokenize source = .ok ts → ∃ us, tokenize (SourceText.stripped source) = .ok us ∧
      us.map (·.lexeme) = Lexeme.withoutComments (ts.map (·.lexeme)) := by
    intro ts hts
    obtain ⟨last, hreads, hend⟩ := Lexer.tokenize_eq_ok_iff.1 hts
    obtain ⟨us, last', hreads', hlexemes, hlast⟩ := Lexer.keepsUp_uncommented.reads hreads hstart
    exact ⟨us, Lexer.tokenize_eq_ok_iff.2 ⟨last', hreads', hlast.finished hend⟩, hlexemes⟩
  have hsame : ∀ ts us : List Token,
      us.map (·.lexeme) = Lexeme.withoutComments (ts.map (·.lexeme)) →
        Token.meaning us = Token.meaning ts := by
    intro ts us hlexemes
    rw [Token.meaning_eq_withoutComments, Token.meaning_eq_withoutComments, hlexemes,
      Lexeme.withoutComments, Lexeme.withoutComments, List.filter_filter]
    simp
  refine ⟨hfault, fun ts hts => ?_, fun host r => ?_⟩
  · obtain ⟨us, hus, hlexemes⟩ := hok ts hts
    exact ⟨us, hus, hlexemes,
      (contentHash_eq_and_parse_eq_ok_iff hts hus (hsame ts us hlexemes)).1⟩
  · cases hts : tokenize source with
    | ok ts =>
      obtain ⟨us, hus, hlexemes⟩ := hok ts hts
      exact ((contentHash_eq_and_parse_eq_ok_iff hts hus (hsame ts us hlexemes)).2 host r).symm
    | error e =>
      -- Neither source has tokens that could be read.
      rw [Parser.parse_eq_ok_iff, Parser.parse_eq_ok_iff, hts, hfault e hts]

/-- Quotes in comments, a number sign in a string, comments too deep for a line, and a fault behind one. -/
theorem tokenize_stripped_event :
    SourceText.stripped "event E # it's\n     # deep\n  x int [unit '#'] # \"\n# d\n" =
        "event E \n     \n  x int [unit '#'] \n\n" ∧
      (∃ ts us, tokenize "event E # it's\n     # deep\n  x int [unit '#'] # \"\n# d\n" = .ok ts ∧
        tokenize "event E \n     \n  x int [unit '#'] \n\n" = .ok us ∧
        us.map (·.lexeme) = [.symbol "event", .symbol "E", .openScope, .symbol "x", .symbol "int",
          .openMeta, .symbol "unit", .string "#", .closeMeta, .endLine, .closeScope] ∧
        contentHash us = contentHash ts) ∧
      (∃ r, parse HostTypes.empty "event E # it's\n     # deep\n  x int [unit '#'] # \"\n# d\n" = .ok r ∧
        parse HostTypes.empty "event E \n     \n  x int [unit '#'] \n\n" = .ok r) ∧
      tokenize "x # '\n   y\n" = .error ⟨.oddIndent 3, ⟨2, 1⟩⟩ ∧
      tokenize "x \n   y\n" = .error ⟨.oddIndent 3, ⟨2, 1⟩⟩ := by
  have hevent : SourceText.stripped "event E # it's\n     # deep\n  x int [unit '#'] # \"\n# d\n" =
      "event E \n     \n  x int [unit '#'] \n\n" := by
    decide +kernel
  have hfaulty : SourceText.stripped "x # '\n   y\n" = "x \n   y\n" := by decide +kernel
  have hts : tokenize "event E # it's\n     # deep\n  x int [unit '#'] # \"\n# d\n" =
      .ok (lex "event E # it's\n     # deep\n  x int [unit '#'] # \"\n# d\n").tokens := by
    decide +kernel
  have hfault : tokenize "x # '\n   y\n" = .error ⟨.oddIndent 3, ⟨2, 1⟩⟩ := by decide +kernel
  obtain ⟨r, hr⟩ := exists_ok_of_isSome (show (parse HostTypes.empty
    "event E # it's\n     # deep\n  x int [unit '#'] # \"\n# d\n").toOption.isSome by decide +kernel)
  obtain ⟨-, hok, hparse⟩ := tokenize_stripped
    (show "event E # it's\n     # deep\n  x int [unit '#'] # \"\n# d\n".toList.getLast? = some '\n' by
      decide +kernel)
  obtain ⟨us, hus, hlexemes, hhash⟩ := hok _ hts
  rw [hevent] at hus hparse
  refine ⟨hevent, ⟨_, us, hts, hus, hlexemes.trans (by decide +kernel), hhash⟩,
    ⟨r, hr, (hparse _ r).1 hr⟩, hfault, ?_⟩
  rw [← hfaulty]
  exact (tokenize_stripped (by decide +kernel)).1 _ hfault

end EntitySchema
