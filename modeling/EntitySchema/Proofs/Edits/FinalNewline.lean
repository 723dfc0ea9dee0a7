import EntitySchema.Proofs.Lexer.Transfer
import EntitySchema.Proofs.Meaning
/-!
  One more newline at the end.

  A newline behind a source that can be read is read as the end of the last line, if that is still open, and
  as nothing at all otherwise.  The parser does not mind: wherever it takes the end of the source it takes the
  end of a line before it (`Completes.append_endLine`).  The hash does.  Inside a scope the end of the source
  ends the last line first, but at the top it does not, and there the newline adds the end of a line to the
  hashed text.

  The two lexers are related by `Trails l m`: they have the same layout, and the second one has one newline
  more to read, or has read it where the first one was at the end.  In the first phase the newline is seen
  behind a word, which ends as it would at the end of the text (`halts_append_newline`), or it is read in
  place of the end, by the step that leaves nothing of the text.  In the second phase both take the same
  steps.  At the end of all this the newline may still be there; then it ends a line that is open
  (`Trails.finished`).

  So the protocol stays what it is, and its hash stays exactly if the last lexeme apart from comments is no
  content.

  Main statement: `parse_append_newline`.
-/

namespace EntitySchema

namespace Lexer

variable {l m next last : Lexer} {t : Token} {ts us : List Token} {text : List Char}

/-! ## A newline behind the text -/

/-- The second lexer has one more newline to read, or has read it where the first one was at the end. -/
def Trails (l m : Lexer) : Prop :=
  m.layout = l.layout ∧
    (m.rest = l.rest ++ ['\n'] ∨ (l.rest = [] ∧ m.rest = [] ∧ l.ended = true))

/-- In front of a source the newline is still to be read. -/
theorem trails_ofSource (source : String) : Trails (ofSource source) (ofSource (source ++ "\n")) := by
  refine ⟨(layout_ofSource _).trans (layout_ofSource _).symm, Or.inl ?_⟩
  rw [rest_ofSource, rest_ofSource, String.toList_append]
  exact SourceText.visible_append_newline _ []

/-- A lexeme that ends with the text ends in front of a newline. -/
theorem halts_append_newline {x : Lexeme} {rest : List Char} (h : x.Halts rest) :
    x.Halts (rest ++ ['\n']) := by
  cases rest with
  | cons c rest => exact h.congr rfl
  | nil =>
    cases x with
    | comment => exact fun c hc => (Option.some.inj hc).symm
    | symbol | number =>
      rintro c ⟨⟩
      decide
    | string | operator | openScope | closeScope | endLine | openMeta | closeMeta => trivial

/-- A last newline and its margin are passed over, down to the newline behind them. -/
theorem reads_lastMargin {margin : Nat} (hat : m.depth = m.target)
    (hrest : m.rest = '\n' :: (List.replicate margin ' ' ++ ['\n'])) :
    Reads m [] (m.past ('\n' :: List.replicate margin ' ') ['\n']) :=
  .pass (SilentStep.blank hat hrest (Or.inl rfl)).step_eq

/-- The end of the text is at level zero. -/
theorem Lands.level_eq_zero {margin level : Nat} (h : l.Lands margin [] level) : level = 0 := by
  obtain ⟨-, ⟨-, hzero⟩ | ⟨-, -, c, more, hcons, -⟩⟩ := h
  · exact hzero
  · cases hcons

/-- Behind the last newline is the end of the text. -/
theorem lands_lastNewline (h : m.rest = ['\n']) : m.Lands 0 [] 0 := ⟨h, Or.inl ⟨rfl, rfl⟩⟩

/-- The last newline ends a line that is open. -/
theorem reads_lastNewline (hat : m.depth = m.target) (hrest : m.rest = ['\n'])
    (hopen : m.ended = false) :
    Reads m [⟨.endLine, m.position⟩] { m.past ['\n'] [] with target := 0, ended := true } :=
  .one (TokenStep.ends hat (lands_lastNewline hrest) (Nat.zero_le _) hopen).step_eq

/-- It is passed over where no line is open. -/
theorem pass_lastNewline (hat : m.depth = m.target) (hrest : m.rest = ['\n'])
    (hended : m.ended = true) : Reads m [] { m.past ['\n'] [] with target := 0 } :=
  .pass (SilentStep.enters hat (lands_lastNewline hrest) (Or.inr hended)).step_eq

/-- Once the newline is read, both lexers take the same steps. -/
theorem Trails.tokenStep_of_read (hlayout : m.layout = l.layout) (hl : l.rest = []) (hm : m.rest = [])
    (hended : l.ended = true) (ht : l.TokenStep t next) :
    m.TokenStep ⟨t.lexeme, m.position⟩ (next.moved m [] []) ∧ Trails next (next.moved m [] []) := by
  obtain ⟨text, hpasses⟩ := ht.exists_passes
  obtain ⟨rfl, hnext⟩ := List.append_eq_nil_iff.1 (hpasses.1.symm.trans hl)
  refine ⟨ht.change_rest hpasses hlayout hm (Or.inl (by rw [hnext])), rfl, Or.inr ⟨hnext, rfl, ?_⟩⟩
  cases ht with
  | opens | ends | endsLast => rfl
  | closes | closesLast => exact hended
  | scans hat hrest => cases hl.symm.trans hrest

/-- A mark is reported with one more newline behind the text, too. -/
theorem TokenStep.exists_reads_of_mark (ht : l.TokenStep t next) (hmark : t.isWritten = false)
    (hlayout : m.layout = l.layout) (hrest : m.rest = l.rest ++ ['\n']) :
    ∃ us m', Reads m us m' ∧ us.map (·.lexeme) = [t.lexeme] ∧ Trails next m' := by
  by_cases hnext : next.rest ≠ []
  · obtain ⟨text, hpasses⟩ := ht.exists_passes
    have hstep := ht.change_rest hpasses hlayout (by rw [hrest, hpasses.1, List.append_assoc])
      (alike_append hnext _)
    exact ⟨_, _, .one hstep.step_eq, rfl, rfl, Or.inl rfl⟩
  -- Where the text ends, the newline is read in place of the end.
  have hnil : next.rest = [] := not_not.1 hnext
  simp only [layout, Prod.mk.injEq] at hlayout
  obtain ⟨hdepth, htarget, hended⟩ := hlayout
  cases ht with
  | opens hlt =>
    have hstep := @TokenStep.opens m (by rwa [hdepth, htarget])
    exact ⟨_, _, .one hstep.step_eq, rfl, by simp [layout, hdepth, htarget], Or.inl hrest⟩
  | closes hlt =>
    have hstep := @TokenStep.closes m (by rwa [hdepth, htarget])
    exact ⟨_, _, .one hstep.step_eq, rfl, by simp [layout, hdepth, htarget, hended], Or.inl hrest⟩
  | @ends margin level rest hat hlands hlevel hopen =>
    obtain rfl : rest = [] := hnil
    have hmargin := @reads_lastMargin m margin (by rw [hdepth, htarget, hat])
      (by rw [hrest, hlands.1]; simp)
    have hline := reads_lastNewline (m := m.past ('\n' :: List.replicate margin ' ') ['\n'])
      (by simp [past, hdepth, htarget, hat]) rfl (hended.trans hopen)
    exact ⟨_, _, hmargin.append hline, rfl, by simp [layout, past, hdepth, hlands.level_eq_zero],
      Or.inr ⟨rfl, rfl, rfl⟩⟩
  | endsLast hat hl hpos hopen =>
    have hline := reads_lastNewline (m := m) (by rw [hdepth, htarget, hat]) (by rw [hrest, hl]; rfl)
      (hended.trans hopen)
    exact ⟨_, _, hline, rfl, by simp [layout, past, hdepth], Or.inr ⟨hl, rfl, rfl⟩⟩
  | closesLast hat hl hpos hclosed =>
    have hline := pass_lastNewline (m := m) (by rw [hdepth, htarget, hat]) (by rw [hrest, hl]; rfl)
      (hended.trans hclosed)
    have hstep := @TokenStep.closes { m.past ['\n'] [] with target := 0 }
      (Nat.pos_of_ne_zero (hdepth ▸ hpos))
    exact ⟨_, _, hline.append (.one hstep.step_eq), rfl, by simp [layout, past, hdepth, hended],
      Or.inr ⟨hl, rfl, hclosed⟩⟩
  | scans hat hcs hc hx => cases hmark.symm.trans (Scan.isWritten_of_ok hx)

/-- What is passed over is passed over with one more newline behind the text, too. -/
theorem SilentStep.exists_reads (hs : l.SilentStep next) (hlayout : m.layout = l.layout)
    (hrest : m.rest = l.rest ++ ['\n']) : ∃ m', Reads m [] m' ∧ Trails next m' := by
  by_cases hnext : next.rest ≠ []
  -- While something is left the newline is not seen.
  · obtain ⟨gap, -, hpasses⟩ := hs.exists_layout
    have hstep := hs.change_rest hpasses hlayout (by rw [hrest, hpasses.1, List.append_assoc])
      (alike_append hnext _)
    exact ⟨_, .pass hstep.step_eq, rfl, Or.inl rfl⟩
  have hnil : next.rest = [] := not_not.1 hnext
  simp only [layout, Prod.mk.injEq] at hlayout
  obtain ⟨hdepth, htarget, hended⟩ := hlayout
  cases hs with
  | @separator c cs hat hcs hc =>
    have hstep := @SilentStep.separator m c (cs ++ ['\n']) (by rw [hdepth, htarget, hat])
      (by rw [hrest, hcs]; rfl) hc
    exact ⟨_, .pass hstep.step_eq, by simp [layout, past, hdepth, htarget, hended], Or.inl rfl⟩
  | blank => cases hnil
  | @enters margin level rest hat hlands hlevel =>
    obtain rfl : rest = [] := hnil
    have hzero := hlands.level_eq_zero
    -- At the end of the text the level is zero, so the line was entered because nothing is open.
    have hclosed : l.ended = true := hlevel.resolve_left (by omega)
    have hmargin := @reads_lastMargin m margin (by rw [hdepth, htarget, hat])
      (by rw [hrest, hlands.1]; simp)
    have hline := pass_lastNewline (m := m.past ('\n' :: List.replicate margin ' ') ['\n'])
      (by simp [past, hdepth, htarget, hat]) rfl (hended.trans hclosed)
    exact ⟨_, hmargin.append hline, by simp [layout, past, hdepth, hended, hzero],
      Or.inr ⟨rfl, rfl, hclosed⟩⟩

/-- A lexer keeps up with another one that has one newline less. -/
theorem keepsUp_trails : KeepsUp (fun _ => true) Trails where
  token {l m next t} h ht := by
    obtain ⟨hlayout, hrest | ⟨hl, hm, hended⟩⟩ := h
    · cases hwritten : t.isWritten with
      | true =>
        rcases ht.exists_layout_or_word with ⟨hmark, -⟩ | ⟨-, word, -, hhalts, -, hpasses⟩
        · cases hmark.symm.trans hwritten
        have hstep := ht.change_behind hwritten hpasses hlayout
          (by rw [hrest, hpasses.1, List.append_assoc]) (halts_append_newline hhalts)
        exact ⟨_, _, .one hstep.step_eq, rfl, rfl, Or.inl rfl⟩
      | false => exact ht.exists_reads_of_mark hwritten hlayout hrest
    -- Both have read everything and close what is open in the same way.
    · obtain ⟨hstep, htrails⟩ := Trails.tokenStep_of_read hlayout hl hm hended ht
      exact ⟨_, _, .one hstep.step_eq, rfl, htrails⟩
  silent {l m next} h hs := by
    obtain ⟨hlayout, hrest | ⟨hl, -, -⟩⟩ := h
    · exact hs.exists_reads hlayout hrest
    · cases hs with
      | separator hat hrest => cases hl.symm.trans hrest
      | blank hat hrest => cases hl.symm.trans hrest
      | enters hat hlands => cases hl.symm.trans hlands.1

/-- At the end of the text the newline is still to be read, or it has been.  It ends a line that is open. -/
theorem Trails.finished (h : Trails l m) (hend : l.step = .finished) :
    ∃ us m', Reads m us m' ∧ m'.step = .finished ∧
      us.map (·.lexeme) = if l.ended then [] else [.endLine] := by
  obtain ⟨hlayout, hrest⟩ := h
  have hnil := (rest_and_depth_of_finished hend).1
  rcases hrest with hrest | ⟨-, hm, hended⟩
  · -- Without the newline the second lexer would be at its end.
    obtain ⟨hrest', hdepth, htarget⟩ : m.rest = ['\n'] ∧ m.depth = 0 ∧ m.target = 0 := by
      simp only [layout, Prod.mk.injEq] at hlayout
      obtain ⟨hdepth, htarget, -⟩ := hlayout
      refine ⟨by rw [hrest, hnil]; rfl, ?_, ?_⟩
      · rw [hdepth, (rest_and_depth_of_finished hend).2]
      · rw [htarget, target_of_finished hend]
    have hat : m.depth = m.target := hdepth.trans htarget.symm
    have hended : m.ended = l.ended := congrArg (fun k => k.2.2) hlayout
    cases hl : l.ended with
    | true =>
      exact ⟨[], _, pass_lastNewline hat hrest' (hended.trans hl), step_finished hdepth rfl rfl, rfl⟩
    | false =>
      exact ⟨_, _, reads_lastNewline hat hrest' (hended.trans hl), step_finished hdepth rfl rfl, rfl⟩
  · exact ⟨[], m, .here m, step_finished_of_layout_eq hend hlayout hm, by simp [hended]⟩

/-- What a run reports stays consistent with what is known. -/
theorem Consistent.reads {xs : List Lexeme} (h : l.Consistent xs) (hreads : Reads l ts last) :
    last.Consistent (xs ++ ts.map (·.lexeme)) := by
  induction hreads generalizing xs with
  | here => rwa [List.map_nil, List.append_nil]
  | token hstep _ ih =>
    have hmore := ih (h.tokenStep (tokenStep_of_step hstep))
    rwa [List.append_assoc] at hmore
  | silent hstep _ ih => exact ih (h.silentStep (silentStep_of_step hstep))

end Lexer

/-! ## Tokens -/

/-- The last token that is no comment is content. -/
def Token.endInContent (ts : List Token) : Bool := (meaning ts).getLast?.any Lexeme.isContent

/-- The same with the token in hand. -/
theorem Token.endInContent_iff {ts : List Token} :
    endInContent ts ↔ ∃ x ∈ (meaning ts).getLast?, x.isContent := by
  rw [endInContent]
  cases (meaning ts).getLast? <;> simp

/-- What is known of the last line shows in what was read. -/
theorem Lexer.ended_of_reads {source : String} {ts : List Token} {last : Lexer}
    (h : Reads (ofSource source) ts last) : last.ended = !Token.endInContent ts := by
  have hopen := ((consistent_ofSource source).reads h).open_iff
  rw [List.nil_append, ← Token.meaning_eq_withoutComments] at hopen
  rw [← Bool.not_eq_eq_eq_not, Bool.eq_iff_iff, Bool.not_eq_true', hopen, Token.endInContent_iff]

/-- One more newline ends the line of content that nothing else has ended, and does nothing otherwise. -/
theorem tokenize_append_newline {source : String} {ts : List Token} (h : tokenize source = .ok ts) :
    ∃ us, tokenize (source ++ "\n") = .ok us ∧
      Token.meaning us = Token.meaning ts ++ if Token.endInContent ts then [.endLine] else [] := by
  obtain ⟨last, hreads, hend⟩ := Lexer.tokenize_eq_ok_iff.1 h
  obtain ⟨us, mid, hus, hlexemes, htrails⟩ :=
    Lexer.keepsUp_trails.reads hreads (Lexer.trails_ofSource source)
  obtain ⟨vs, last', hvs, hend', hmore⟩ := htrails.finished hend
  refine ⟨us ++ vs, Lexer.tokenize_eq_ok_iff.2 ⟨last', hus.append hvs, hend'⟩, ?_⟩
  rw [Token.meaning_eq_withoutComments, Token.meaning_eq_withoutComments, List.map_append, hlexemes,
    hmore, List.filter_eq_self.2 fun _ _ => rfl, Lexer.ended_of_reads hreads, Lexeme.withoutComments,
    Lexeme.withoutComments, List.filter_append]
  cases Token.endInContent ts
  · rfl
  · rfl

/-! ## Protocols -/

namespace Parser

variable {host : HostTypes} {place : Position} {p q r : Parser} {xs ys : List Lexeme}

/-- An idle parser that takes the end of the source is at the end of everything, and stays there. -/
theorem eq_of_feed_none (hidle : p.state.isIdle) (h : p.feed host place none = .ok q) : q = p := by
  obtain ⟨draft, uses, state⟩ := p
  cases state with
  | between => cases h; rfl
  | inBody => cases h
  | namespaceFirst | namespaceMore | namespacePart | protocolName | protocolNameEnd | declarationName
  | header | opening | commandForm | commandReturn | commandEnd | metaKey | metaValue | fieldType
  | constantValue | lodLevel | entry | entryEnd => cases hidle

/-- Behind the end of the source there is nothing more to take. -/
theorem feed_none_idem (h : p.feed host place none = .ok q) (h' : q.feed host place none = .ok r) :
    r = q := by
  obtain ⟨move, hstep, -, hstate⟩ := feed_eq_ok_iff.1 h
  have hidle := State.isIdle_of_mark (Or.inr (Or.inr rfl)) (State.step_none_eq_ok_iff.1 hstep)
  exact eq_of_feed_none (hstate ▸ hidle) h'

/-- The end of the source is taken where the end of a line is taken, and as that. -/
theorem feed_none_eq_ok_iff : p.feed host place none = .ok q ↔
    p.feed host place (some .endLine) = .ok q := by
  simp only [feed_eq_ok_iff, State.step_none_eq_ok_iff]

/-- What is read to the end is read with one more end of a line. -/
theorem Completes.append_endLine (h : p.Completes host xs q) :
    p.Completes host (xs ++ [.endLine]) q := by
  obtain ⟨mid, last, hmid, hlast, hq⟩ := h
  obtain rfl := feed_none_idem hlast hq
  refine ⟨q, q, feedLexemes_append.2 ⟨mid, hmid, ?_⟩, hq, hq⟩
  exact feedLexemes_cons.2 ⟨q, feed_none_eq_ok_iff.1 hlast, rfl⟩

end Parser

/-- A list that ends in content leaves a line open on the page. -/
theorem Token.exists_reach_of_endInContent {ts : List Token} (h : endInContent ts) :
    ∃ depth, Spot.top.reach (body ts) = .inLine depth := by
  obtain ⟨x, hx, hcontent⟩ := endInContent_iff.1 h
  obtain ⟨front, hfront⟩ := List.getLast?_eq_some_iff.1 hx
  have hword := Piece.ofLexeme_of_isContent true hcontent
  refine ⟨(Spot.top.reach (front.map (Piece.ofLexeme true))).indent, ?_⟩
  rw [body_eq_map, hfront, List.map_append, Spot.reach, List.foldl_append, List.map_cons, hword]
  exact Spot.after_word _ x

/-- A `source` that `host` can read as `r` can be read with one more newline, and then as the same protocol.
Its hash is the same unless the last of the tokens `ts` apart from comments is content.  In that case the
newline ends a line, and the hash is that of the text with one more newline, `Fnv.absorb r.hash 10`, which is
never the same. -/
theorem parse_append_newline {host : HostTypes} {source : String} {r : Protocol}
    (h : parse host source = .ok r) :
    ∃ ts, tokenize source = .ok ts ∧
      parse host (source ++ "\n") = .ok { r with
        hash := if Token.endInContent ts then Fnv.absorb r.hash 10 else r.hash } ∧
      (parse host (source ++ "\n") = .ok r ↔ ¬ Token.endInContent ts) := by
  obtain ⟨ts, q, hts, hq, hknown, rfl⟩ := Parser.parse_eq_ok_iff.1 h
  obtain ⟨us, hus, hmeaning⟩ := tokenize_append_newline hts
  have hlegible := (legible_and_orderly_of_tokenize hts).1
  have hlegible' := (legible_and_orderly_of_tokenize hus).1
  -- The protocol is what the same parser has built, under another hash perhaps.
  have hread : ∀ hash, contentHash us = hash → Parser.start.Completes host (Token.meaning us) q →
      parse host (source ++ "\n") = .ok (q.draft.finish hash) := by
    rintro hash rfl hq'
    exact Parser.parse_eq_ok_iff.2 ⟨us, q, hus, hq', hknown, rfl⟩
  refine ⟨ts, hts, ?_⟩
  cases hend : Token.endInContent ts with
  | false =>
    rw [hend, if_neg Bool.false_ne_true, List.append_nil] at hmeaning
    have hsame := hread _ (contentHash_eq_of_lexemes_eq hmeaning) (hmeaning ▸ hq)
    exact ⟨hsame, by simpa using hsame⟩
  | true =>
    rw [hend, if_pos rfl] at hmeaning
    obtain ⟨depth, hline⟩ := Token.exists_reach_of_endInContent hend
    have hhash := contentHash_of_body_eq hlegible hlegible' hline
      (by rw [Token.body_eq_map, hmeaning, List.map_append, ← Token.body_eq_map]; rfl)
    -- The line that the newline ends was open, so one more end of a line is read and hashed.
    have hother := hread _ hhash (hmeaning ▸ hq.append_endLine)
    have hne : parse host (source ++ "\n") ≠ .ok (q.draft.finish (contentHash ts)) := by
      intro hsame
      exact Fnv.absorb_newline_ne _ (congrArg Protocol.hash (Except.ok.inj (hother.symm.trans hsame)))
    exact ⟨hother, by simpa using hne⟩

/-- A name at the end of everything: its line is open, and the newline ends it. -/
theorem parse_append_newline_name :
    ∃ r ts, parse HostTypes.empty "name x" = .ok r ∧ tokenize "name x" = .ok ts ∧
      r.hash = 1756059646 ∧ Token.endInContent ts ∧
      parse HostTypes.empty "name x\n" = .ok { r with hash := 3116070172 } := by
  obtain ⟨r, hr⟩ := exists_ok_of_isSome
    (show (parse HostTypes.empty "name x").toOption.isSome by decide +kernel)
  obtain ⟨ts, hts, hparse, -⟩ := parse_append_newline hr
  have hhash : r.hash = 1756059646 := by
    have hmap : (parse HostTypes.empty "name x").toOption.map Protocol.hash = some 1756059646 := by
      decide +kernel
    rw [hr] at hmap
    exact Option.some.inj hmap
  have hend : Token.endInContent ts := by
    have hlexed : tokenize "name x" = .ok [⟨.symbol "name", ⟨1, 1⟩⟩, ⟨.symbol "x", ⟨1, 6⟩⟩] := by
      decide +kernel
    cases Except.ok.inj (hts.symm.trans hlexed)
    rfl
  rw [if_pos hend, hhash] at hparse
  exact ⟨r, ts, hr, hts, hhash, hend, hparse⟩

/-- So a newline at the end is not always mere layout. -/
theorem not_parse_append_newline :
    ¬ ∀ (host : HostTypes) (source : String) (r : Protocol), parse host source = .ok r →
      parse host (source ++ "\n") = .ok r := by
  intro hall
  obtain ⟨r, hr⟩ := exists_ok_of_isSome
    (show (parse HostTypes.empty "name x").toOption.isSome by decide +kernel)
  have hsame := hall HostTypes.empty "name x" r hr
  have hhash : (parse HostTypes.empty "name x").toOption.map Protocol.hash ≠
      (parse HostTypes.empty ("name x" ++ "\n")).toOption.map Protocol.hash := by
    decide +kernel
  exact hhash (by rw [hr, hsame])

end EntitySchema
