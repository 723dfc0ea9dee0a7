import EntitySchema.Proofs.Canonical.Regular
/-!
  The canonical text of a regular token list is read as that list.

  The parts have been shown apart.  For tokens `ts` of a source, with pieces `ps`,
  * the canonical text is read as `settle ps` (`tokenize_canonicalText`),
  * for a regular list `settle ps` spells `ps`, and the end of a line that a last remark has ended
    (`map_lexeme_settle`),
  * and the text of `settle ps` is that of `ps`, since steady remarks are level (`tail_settle_iff`).

  What is left is the end of the list.  It must not be a comment unless the list holds nothing else, because
  such a comment would end the line before it (`unfinished_reach_top`).  Without comments a list never ends in
  one, so there the condition is no condition.

  Main statement: `canonicalText_roundTrip`, for both ways to write a text.  With its comments a list comes
  back as it was, and the text it comes back from is a fixed point; without its comments a list comes back as
  what is left of it.
-/

namespace EntitySchema

namespace Spot

/-- Where a list does not end in a remark, or holds nothing else, no line is left to end. -/
theorem unfinished_reach_top {ps : List Piece}
    (h : (∀ b ∈ ps.map Piece.isRemark, b = true) ∨ ∀ b ∈ (ps.map Piece.isRemark).getLast?, ¬ b) :
    (top.reach ps).unfinished = [] := by
  rcases h with hall | hlast
  · -- Remarks alone do not lead away from the front.
    have hspot : ∀ s : Spot, s = top ∨ s = fresh 0 0 true → (s.reach ps).unfinished = [] := by
      induction ps with
      | nil => rintro s (rfl | rfl) <;> rfl
      | cons p ps ih =>
        intro s hs
        rw [List.map_cons, List.forall_mem_cons] at hall
        refine ih hall.2 _ ?_
        cases p with
        | remark => rcases hs with rfl | rfl <;> exact Or.inr rfl
        | word | opens | closes | ends => cases hall.1
    exact hspot top (Or.inl rfl)
  -- Behind a last piece that is no remark nothing is left unfinished.
  · rcases List.eq_nil_or_concat ps with rfl | ⟨front, p, rfl⟩
    · rfl
    · have hp : ¬ p.isRemark := hlast _ (by simp)
      rw [List.concat_eq_append, reach, List.foldl_append, List.foldl_cons, List.foldl_nil]
      generalize front.foldl after top = s
      cases p with
      | remark => exact absurd rfl hp
      | word | opens | closes | ends => cases s <;> rfl

end Spot

/-- A regular list that leaves no line to end is read back from its canonical text, which is a fixed
point. -/
theorem exists_tokenize_of_regular {ts : List Token} (hlegible : ∀ t ∈ ts, t.lexeme.Legible)
    (horderly : Spot.top.Orderly (pieces ts)) (hregular : Lexeme.Regular none (ts.map (·.lexeme)))
    (hlast : (∀ t ∈ ts, t.isComment) ∨ ∀ t ∈ ts.getLast?, ¬ t.isComment) :
    ∃ us, tokenize (canonicalText Flags.normal ts) = .ok us ∧
      us.map (·.lexeme) = ts.map (·.lexeme) ∧
      canonicalText Flags.normal us = canonicalText Flags.normal ts := by
  have hps := proper_and_legible_of_mem_piecesFrom none hlegible
  have hlexemes : ∀ us, (pieces us).map Piece.lexeme = us.map (·.lexeme) :=
    map_lexeme_piecesFrom none
  have hremarks : (pieces ts).map Piece.isRemark = ts.map Token.isComment :=
    map_isRemark_piecesFrom none ts
  obtain ⟨hfounded, hfilled, hsteady⟩ := @Spot.of_regular none _ (pieces ts) (by rwa [hlexemes]) horderly
    (fun p hp => (hps p hp).1) .top
  have hfinished : (Spot.top.reach (pieces ts)).unfinished = [] := by
    refine Spot.unfinished_reach_top ?_
    rw [hremarks]
    simpa using hlast
  -- The page is read as what the pieces settle to, and regular pieces have settled.
  obtain ⟨us, hus, hpieces⟩ := tokenize_canonicalText hlegible horderly
    (Spot.stepwise_of_founded hfounded (by simp))
  refine ⟨us, hus, ?_, ?_⟩
  · rw [← hlexemes us, hpieces, Spot.map_lexeme_settle horderly hfounded hfilled hsteady, hfinished,
      List.append_nil]
    exact hlexemes ts
  · rw [← String.toList_inj, canonicalText_eq_tail (legible_and_orderly_of_tokenize hus).1,
      canonicalText_eq_tail hlegible, hpieces,
      Spot.tail_settle_iff horderly hfounded hfilled .top]
    exact Spot.level_of_steady hsteady

/-- Let `ts` be the tokens of a `source`, regular in the sense of `Lexeme.Regular none`. (a) Unless they end
in a comment behind something else, they come back from their canonical text: it has tokens `us` with the same
lexemes, and their canonical text is the same text. (b) What is left of them without comments comes back from
the canonical text without comments.  And all sources without comma lines have regular tokens. -/
theorem canonicalText_roundTrip {source : String} {ts : List Token} (h : tokenize source = .ok ts) :
    (Lexeme.Regular none (ts.map (·.lexeme)) →
      (((∀ t ∈ ts, t.isComment) ∨ ∀ t ∈ ts.getLast?, ¬ t.isComment) →
        ∃ us, tokenize (canonicalText Flags.normal ts) = .ok us ∧
          us.map (·.lexeme) = ts.map (·.lexeme) ∧
          canonicalText Flags.normal us = canonicalText Flags.normal ts) ∧
      ∃ us, tokenize (canonicalText Flags.discardComments ts) = .ok us ∧
        us.map (·.lexeme) = (Token.withoutComments ts).map (·.lexeme)) ∧
    (Lexer.NoCommaLine (SourceText.withoutReturns source.toList) →
      Lexeme.Regular none (ts.map (·.lexeme))) := by
  obtain ⟨hlegible, horderly⟩ := legible_and_orderly_of_tokenize h
  refine ⟨fun hregular => ⟨exists_tokenize_of_regular hlegible horderly hregular, ?_⟩,
    regular_of_noCommaLine h⟩
  have hfilter : (Token.withoutComments ts).map (·.lexeme) =
      (ts.map (·.lexeme)).filter fun x => !x.isComment := by
    rw [Token.withoutComments, List.filter_map]
    rfl
  have hcomment : ∀ t ∈ Token.withoutComments ts, ¬ t.isComment := fun t ht => by
    simpa using (List.mem_filter.1 ht).2
  -- Without its comments the list is regular still, and it ends in none.
  obtain ⟨us, hus, hlexemes, -⟩ := @exists_tokenize_of_regular
    (Token.withoutComments ts) (fun t ht => hlegible t (List.mem_filter.1 ht).1)
    (Spot.orderly_withoutComments horderly)
    (by rw [hfilter]; exact Lexeme.regular_filter hregular)
    (Or.inr fun t ht => hcomment t (List.mem_of_getLast? ht))
  rw [canonicalText_discardComments]
  exact ⟨us, hus, hlexemes⟩

/-- A comment behind a line, a comment on a line of its own, and scopes that open and close. -/
theorem canonicalText_roundTrip_component :
    ∃ ts, tokenize "component A # a\n  # b\n  x  'it'\nname \"y\"\n" = .ok ts ∧
      (∃ us, tokenize (canonicalText Flags.normal ts) = .ok us ∧
        us.map (·.lexeme) = ts.map (·.lexeme) ∧
        canonicalText Flags.normal us = canonicalText Flags.normal ts) ∧
      ∃ us, tokenize (canonicalText Flags.discardComments ts) = .ok us ∧
        us.map (·.lexeme) = (Token.withoutComments ts).map (·.lexeme) := by
  have h : tokenize "component A # a\n  # b\n  x  'it'\nname \"y\"\n" = .ok
      [⟨.symbol "component", ⟨1, 1⟩⟩, ⟨.symbol "A", ⟨1, 11⟩⟩, ⟨.comment "a", ⟨1, 13⟩⟩,
        ⟨.comment "b", ⟨2, 3⟩⟩, ⟨.openScope, ⟨3, 3⟩⟩, ⟨.symbol "x", ⟨3, 3⟩⟩, ⟨.string "it", ⟨3, 6⟩⟩,
        ⟨.endLine, ⟨3, 10⟩⟩, ⟨.closeScope, ⟨4, 1⟩⟩, ⟨.symbol "name", ⟨4, 1⟩⟩, ⟨.string "y", ⟨4, 6⟩⟩,
        ⟨.endLine, ⟨4, 9⟩⟩] := by
    decide +kernel
  obtain ⟨hback, -⟩ := canonicalText_roundTrip h
  obtain ⟨hnormal, hbare⟩ := hback (by simp [Lexeme.Regular, Lexeme.remember, Lexeme.isComment,
    Lexeme.isContent])
  exact ⟨_, h, hnormal (Or.inr (by simp [Token.isComment, Lexeme.isComment])), hbare⟩

end EntitySchema
