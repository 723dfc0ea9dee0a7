import EntitySchema.Proofs.Canonical.Fixed
import EntitySchema.Proofs.Meaning
/-!
  Reading again what was beautified.

  A description that can be read is replaced by its canonical text.  Then it can be read again as the same
  protocol, and its canonical text is itself, exactly if its tokens are `Fixed` (`parse_canonicalText_iff`).
  Where they are not, one of three things happens, and each has a predicate on the pieces of the list:
  * a scope without content is not written, so the text may no longer be a protocol (not `Filled`),
  * a comment that stands behind the scopes it belongs to moves once more (not `Level`),
  * a last comment ends a line that was not ended, so the hash is another one (`unfinished` is not empty).

  `fixed_tokens_iff` says that `Fixed` is the absence of all three.  For the way back the three have to be
  read off the result: what is read again is settled (`exists_tokenize_of_feedLexemes`), an equation between
  protocols shows that nothing was squeezed, and an equation between hashes shows that no line was ended,
  because one more newline always changes a hash.
-/

namespace EntitySchema

/-! ## Spots with remarks and without -/

/-- Behind the pieces `ps` a page stands at a spot `s` and the page without their remarks at a spot `s'`, and
the two keep to the relation that they started in.  By induction on the pieces; a remark moves one side only.
-/
theorem Spot.Bare.reach {s s' : Spot} {ps : List Piece} (h : Spot.Bare s s') (horderly : s.Orderly ps) :
    Spot.Bare (s.reach ps) (s'.reach (Piece.withoutRemarks ps)) := by
  induction ps generalizing s s' with
  | nil => exact h
  | cons p ps ih =>
    obtain ⟨hallows, -, horderly⟩ := horderly
    cases hp : p.isRemark with
    | true =>
      cases p with
      | remark text own => exact ih (h.after_remark text own) horderly
      | word | opens | closes | ends => cases hp
    | false =>
      rw [Piece.withoutRemarks_cons hp]
      exact ih (h.after hp hallows).2 horderly

/-! ## Reading a canonical text as a protocol -/

/-- The canonical text of a list that a parser has read is read as the settled list.  What is left of it
without comments is squeezed, and a line that a last comment has ended is ended. -/
theorem exists_tokenize_of_feedLexemes {host : HostTypes} {ts : List Token} {mid : Parser}
    (hlegible : ∀ t ∈ ts, t.lexeme.Legible) (horderly : Spot.top.Orderly (pieces ts))
    (hmid : Parser.start.feedLexemes host (Token.meaning ts) = .ok mid) :
    ∃ us, tokenize (canonicalText Flags.normal ts) = .ok us ∧ (∀ t ∈ us, t.lexeme.Legible) ∧
      Token.body us = Piece.squeeze (Token.body ts) ++ (Spot.top.reach (pieces ts)).unfinished ∧
      (Spot.top.Filled (pieces ts) →
        (canonicalText Flags.normal us = canonicalText Flags.normal ts ↔
          Spot.top.Level (pieces ts))) := by
  have hfounded := Spot.founded_of_headed (Parser.headed_pieces hlegible horderly hmid)
  obtain ⟨us, hus, hpieces⟩ := tokenize_canonicalText hlegible horderly
    (Spot.stepwise_of_founded hfounded (by simp))
  have hlegible' := (legible_and_orderly_of_tokenize hus).1
  refine ⟨us, hus, hlegible', ?_, fun hfilled => ?_⟩
  · rw [Token.body_eq_withoutRemarks, hpieces, Spot.withoutRemarks_settle horderly .top,
      ← Token.body_eq_withoutRemarks, Parser.settle_body hlegible horderly hmid]
  · rw [← String.toList_inj, canonicalText_eq_tail hlegible', canonicalText_eq_tail hlegible, hpieces]
    exact Spot.tail_settle_iff horderly hfounded hfilled .top

/-- In a list that a parser has read scopes have content exactly if there is nothing to squeeze. -/
theorem squeeze_body_iff {host : HostTypes} {ts : List Token} {mid : Parser}
    (hlegible : ∀ t ∈ ts, t.lexeme.Legible) (horderly : Spot.top.Orderly (pieces ts))
    (hmid : Parser.start.feedLexemes host (Token.meaning ts) = .ok mid) :
    Piece.squeeze (Token.body ts) = Token.body ts ↔ Spot.top.Filled (pieces ts) := by
  rw [← Spot.filled_withoutRemarks_iff horderly .top, ← Token.body_eq_withoutRemarks]
  exact Spot.squeeze_eq_iff_filled (Spot.orderly_withoutComments horderly)
    (Parser.headed_body hlegible hmid) Token.isRemark_of_mem_body (by simp)

/-- A list that a parser has read is fixed exactly if its scopes have content, its remarks are level, and
no line is left to end. -/
theorem fixed_tokens_iff {host : HostTypes} {ts : List Token} {mid : Parser}
    (hlegible : ∀ t ∈ ts, t.lexeme.Legible) (horderly : Spot.top.Orderly (pieces ts))
    (hmid : Parser.start.feedLexemes host (Token.meaning ts) = .ok mid) :
    Lexeme.Fixed none (ts.map (·.lexeme)) ↔ Spot.top.Filled (pieces ts) ∧
      Spot.top.Level (pieces ts) ∧ (Spot.top.reach (pieces ts)).unfinished = [] := by
  have hfixed := @Spot.fixed_iff none _ _ horderly (Parser.headed_pieces hlegible horderly hmid)
    (fun p hp => (proper_and_legible_of_mem_piecesFrom none hlegible p hp).1) .top
  have hlexemes : (pieces ts).map Piece.lexeme = ts.map (·.lexeme) := map_lexeme_piecesFrom none ts
  have hnone : pieces ts = [] → Spot.top.unfinished = [] := fun _ => rfl
  rwa [hlexemes, and_iff_left hnone] at hfixed

/-- The line that a last comment has ended is open without the comments. -/
theorem exists_reach_body {ts : List Token} (horderly : Spot.top.Orderly (pieces ts))
    (h : (Spot.top.reach (pieces ts)).unfinished ≠ []) :
    (∃ depth, Spot.top.reach (Token.body ts) = .inLine depth) ∧
      (Spot.top.reach (pieces ts)).unfinished = [.ends] := by
  have hreach := Spot.Bare.reach .top horderly
  rw [← Token.body_eq_withoutRemarks] at hreach
  generalize Spot.top.reach (pieces ts) = s at h hreach ⊢
  generalize Spot.top.reach (Token.body ts) = s' at hreach ⊢
  cases hreach with
  | remarked depth => exact ⟨⟨depth, rfl⟩, rfl⟩
  | top | first | inLine | fresh => exact absurd rfl h

/-- The canonical text of a description has tokens `us`.  It is read as the same protocol `r` and is its own
canonical text exactly if the tokens `ts` of the description are fixed.  Both directions are needed elsewhere:
one says when beautifying is safe, the other that it is not safe in any other case. -/
theorem parse_canonicalText_iff {host : HostTypes} {source : String} {r : Protocol} {ts : List Token}
    (h : parse host source = .ok r) (hts : tokenize source = .ok ts) :
    ∃ us, tokenize (canonicalText Flags.normal ts) = .ok us ∧
      (parse host (canonicalText Flags.normal ts) = .ok r ∧
          canonicalText Flags.normal us = canonicalText Flags.normal ts ↔
        Lexeme.Fixed none (ts.map (·.lexeme))) := by
  obtain ⟨ts', q, hts', hq, hknown, rfl⟩ := Parser.parse_eq_ok_iff.1 h
  cases Except.ok.inj (hts'.symm.trans hts)
  obtain ⟨hlegible, horderly⟩ := legible_and_orderly_of_tokenize hts
  obtain ⟨mid, last, hmid, hend⟩ := id hq
  obtain ⟨us, hus, hlegible', hbody, hsame⟩ := exists_tokenize_of_feedLexemes hlegible horderly hmid
  have hsqueeze := squeeze_body_iff hlegible horderly hmid
  refine ⟨us, hus, ?_⟩
  rw [fixed_tokens_iff hlegible horderly hmid]
  constructor
  · rintro ⟨hparse, htext⟩
    obtain ⟨us', q', hus', ⟨mid', -, hmid', -⟩, -, hr⟩ := Parser.parse_eq_ok_iff.1 hparse
    cases Except.ok.inj (hus'.symm.trans hus)
    -- A parser that reads both the list and the squeezed one finds them equal.
    have hfilled : Spot.top.Filled (pieces ts) := by
      rw [← hsqueeze]
      rw [← Token.map_lexeme_body, hbody, List.map_append] at hmid'
      rw [← Token.map_lexeme_body] at hmid
      obtain ⟨front, hfront, -⟩ := Parser.feedLexemes_append.1 hmid'
      exact Parser.eq_of_squeeze_eq (Piece.squeeze_squeeze _) hfront hmid
    refine ⟨hfilled, (hsame hfilled).1 htext, ?_⟩
    -- A line that a last comment has ended would show in the hash.
    by_contra hopen
    obtain ⟨⟨depth, hline⟩, hends⟩ := exists_reach_body horderly hopen
    rw [hends, hsqueeze.2 hfilled] at hbody
    have hhash := contentHash_of_body_eq hlegible hlegible' hline hbody
    exact Fnv.absorb_newline_ne _ (hhash.symm.trans (congrArg Protocol.hash hr).symm)
  · rintro ⟨hfilled, hlevel, hdone⟩
    rw [hdone, hsqueeze.2 hfilled, List.append_nil] at hbody
    have hmeaning := congrArg (List.map Piece.lexeme) hbody
    rw [Token.map_lexeme_body, Token.map_lexeme_body] at hmeaning
    refine ⟨Parser.parse_eq_ok_iff.2 ⟨us, q, hus, hmeaning ▸ hq, hknown, ?_⟩, (hsame hfilled).2 hlevel⟩
    rw [contentHash_eq_of_lexemes_eq hmeaning]

end EntitySchema
