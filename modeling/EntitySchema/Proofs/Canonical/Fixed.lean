import EntitySchema.Proofs.Canonical.Regular
import EntitySchema.Proofs.Canonical.Squeeze
/-!
  Which lists a canonical text keeps.

  Of the lists whose scopes open behind words some come back from their canonical text as another list.  There
  are three reasons, and each can be told from two lexemes that follow each other, or from the last one:
  * the end of a scope directly behind its start: a scope without content is gone,
  * a comment directly behind the start or the end of a scope: it moves before that mark,
  * a comment at the end of everything, behind a word: it ends the line of the word.

  `Lexeme.Fixed prev xs` excludes these three and no other list; `prev` is the last lexeme in front of `xs`
  that is no comment.  Two comments in a row are looked at with the same `prev`, as a second comment goes
  wherever the first one goes.

  `Spot.fixed_iff` takes the condition apart into what the three reasons do to a page,

      Fixed prev (lexemes of ps)   ↔   s.Filled ps  ∧  s.Level ps  ∧  (s.reach ps).unfinished = []

  where `s` is the spot of the page in front of `ps` and `Recalls prev s` ties the two sides together: the
  spot remembers of `prev` just what the tests on `prev` ask.  The induction is on the pieces, with a case for
  each kind of piece, and the step of `Recalls` says that `prev` and the spot go on together.

  The rest of the module compares `Filled` with `squeeze`, which loses nothing but empty scopes
  (`squeeze_eq_iff_filled`).
-/

namespace EntitySchema

/-- The lexemes `xs`, behind the lexeme `prev`, come back from their canonical text with the same meaning.
For the first one, `x`, this says: if it is a comment, it stands behind neither the start nor the end of a
scope, and not behind content either if it is the last of all; and if it ends a scope, the scope has just
started nowhere in front of it.  `remember` keeps `prev` over a comment. -/
def Lexeme.Fixed (prev : Option Lexeme) : List Lexeme → Prop
  | [] => True
  | x :: xs => (x.isComment → prev ≠ some .openScope ∧ prev ≠ some .closeScope ∧
        (xs = [] → ∀ y ∈ prev, ¬ y.isContent)) ∧
      (x = .closeScope → prev ≠ some .openScope) ∧
      Fixed (remember prev x) xs

namespace Spot

/-! ## Scopes with content -/

/-- Where there is nothing to squeeze every scope has content.  The condition on the spot says that no scope
has just been opened in front of `ps`, or that it is not closed right away. -/
theorem filled_of_squeeze_eq {s : Spot} {ps : List Piece} (h : Piece.squeeze ps = ps)
    (horderly : s.Orderly ps) (hheaded : s.Headed ps) (hbare : ∀ p ∈ ps, p.isRemark = false)
    (hle : ∀ depth indent idle, s = fresh depth indent idle →
      indent ≤ depth ∨ ∀ qs, ps ≠ .closes :: qs) : s.Filled ps := by
  induction ps generalizing s with
  | nil => trivial
  | cons p ps ih =>
    -- Squeezing would take two pieces away, and the list would not be the same.
    have hne : ∀ qs, p = .opens → ps ≠ .closes :: qs := by
      rintro qs rfl rfl
      rw [Piece.squeeze] at h
      cases h
    rw [Piece.squeeze_cons hne, List.cons.injEq] at h
    obtain ⟨hallows, -, horderly⟩ := horderly
    have hcloses : p = .closes → ∀ depth indent idle, s = fresh depth indent idle → indent ≤ depth := by
      rintro rfl depth indent idle hs
      exact (hle depth indent idle hs).resolve_right fun hall => hall ps rfl
    refine ⟨hcloses, ih h.2 horderly hheaded.2 (fun q hq => hbare q (List.mem_cons_of_mem p hq)) ?_⟩
    -- Where the page indents deeper than it stands, no scope closes next.
    intro depth indent idle hs
    cases p with
    | opens => exact Or.inr fun qs => hne qs rfl
    | word => rw [after_word] at hs; cases hs
    | remark => cases hbare _ List.mem_cons_self
    | closes =>
      cases s with
      | top | inLine | remarked => exact hallows.elim
      | fresh d i b =>
        have hle' := hcloses rfl d i b rfl
        cases hs
        exact Or.inl (by omega)
    | ends =>
      cases s with
      | top | fresh => exact hallows.elim
      | inLine | remarked => cases hs; exact Or.inl (Nat.le_refl _)

/-- Scopes that open behind words have content exactly if there is nothing to squeeze. -/
theorem squeeze_eq_iff_filled {s : Spot} {ps : List Piece} (horderly : s.Orderly ps)
    (hheaded : s.Headed ps) (hbare : ∀ p ∈ ps, p.isRemark = false)
    (hle : ∀ depth indent idle, s = fresh depth indent idle → indent ≤ depth) :
    Piece.squeeze ps = ps ↔ s.Filled ps := by
  constructor
  · exact fun h => filled_of_squeeze_eq h horderly hheaded hbare
      fun depth indent idle hs => Or.inl (hle depth indent idle hs)
  · intro hfilled
    -- The other direction needs no order.
    clear horderly hbare hle
    induction ps using Piece.squeeze.induct generalizing s with
    | case1 => rfl
    | case2 ps ih =>
      have hopen := hheaded.1 rfl
      -- A scope that closes at once would close above where the page stands.
      cases s with
      | top | fresh => cases hopen
      | inLine depth | remarked depth =>
        exact absurd (hfilled.2.1 rfl _ _ _ rfl) (Nat.not_succ_le_self depth)
    | case3 p ps hne ih =>
      rw [Piece.squeeze_cons fun qs hp hq => hne qs hp hq, ih hheaded.2 hfilled.2]

/-- Remarks are no content, so whether scopes have content can be said of the pieces without them. -/
theorem filled_withoutRemarks_iff {s s' : Spot} {ps : List Piece} (horderly : s.Orderly ps)
    (hs : Bare s s') : s'.Filled (Piece.withoutRemarks ps) ↔ s.Filled ps := by
  induction ps generalizing s s' with
  | nil => exact Iff.rfl
  | cons p ps ih =>
    obtain ⟨hallows, -, horderly⟩ := horderly
    cases hp : p.isRemark with
    | true =>
      cases p with
      | remark text own =>
        rw [Piece.withoutRemarks_cons_remark, ih horderly (hs.after_remark text own), Filled]
        simp
      | word | opens | closes | ends => cases hp
    | false =>
      rw [Piece.withoutRemarks_cons hp, Filled, Filled, ih horderly (hs.after hp hallows).2]
      -- Only a scope that closes is looked at, and both places have the same level there.
      refine and_congr_left fun _ => ⟨fun h hcloses => ?_, fun h hcloses => ?_⟩
      · subst hcloses
        cases hs with
        | top | first | inLine | remarked => exact absurd hallows (by simp [Allows])
        | fresh => exact h rfl
      · subst hcloses
        cases hs with
        | top | first | inLine | remarked => exact absurd hallows (by simp [Allows])
        | fresh => exact h rfl

/-! ## Fixed lists -/

/-- A fresh line is as deep as the line before it, unless a scope has just been opened or closed. -/
theorem Recalls.level_iff {prev : Option Lexeme} {s : Spot} (h : Recalls prev s) :
    (∀ depth indent idle, s = fresh depth indent idle → indent = depth) ↔
      prev ≠ some .openScope ∧ prev ≠ some .closeScope := by
  cases h with
  | top | first => simp
  | inLine hx | remarked hx =>
    refine iff_of_true (by simp) ⟨?_, ?_⟩
    · rintro ⟨⟩
      cases hx
    · rintro ⟨⟩
      cases hx
  | ended depth =>
    refine iff_of_true ?_ ⟨by simp, by simp⟩
    intro d i idle hs
    cases hs
    rfl
  | closed hlt => exact iff_of_false (fun hall => absurd (hall _ _ _ rfl) (Nat.ne_of_lt hlt)) (by simp)
  | opened depth => exact iff_of_false (fun hall => absurd (hall _ _ _ rfl) (by omega)) (by simp)

/-- A remark leaves a line unfinished that it found open, and that is a line with content. -/
theorem Recalls.unfinished_after_remark {prev : Option Lexeme} {s : Spot} (h : Recalls prev s)
    (text : String) (own : Bool) :
    (s.after (.remark text own)).unfinished = [] ↔ ∀ y ∈ prev, ¬ y.isContent := by
  cases h with
  | top | first | ended | closed | opened => simp [unfinished, Lexeme.isContent]
  | inLine hx | remarked hx => simp [unfinished, hx]

/-- A list is fixed exactly if its scopes have content, its remarks are level, and no line is left to end.
The condition on an empty `ps` stands for the last clause of `Fixed`: if nothing follows, then nothing must be
left to end at `s`. -/
theorem fixed_iff {prev : Option Lexeme} {s : Spot} {ps : List Piece} (horderly : s.Orderly ps)
    (hheaded : s.Headed ps) (hproper : ∀ p ∈ ps, p.Proper) (hs : Recalls prev s) :
    Lexeme.Fixed prev (ps.map Piece.lexeme) ∧ (ps = [] → s.unfinished = []) ↔
      s.Filled ps ∧ s.Level ps ∧ (s.reach ps).unfinished = [] := by
  induction ps generalizing prev s with
  | nil => simp [Lexeme.Fixed, Filled, Level, reach]
  | cons p ps ih =>
    obtain ⟨hallows, -, horderly⟩ := horderly
    obtain ⟨hopens, hheaded⟩ := hheaded
    have hp := hproper p List.mem_cons_self
    replace ih := fun {prev' : Option Lexeme} hs => @ih prev' _ horderly hheaded
      (fun q hq => hproper q (List.mem_cons_of_mem p hq)) hs
    rw [Filled, Level, reach_cons, List.map_cons, Lexeme.Fixed]
    cases p with
    | word x =>
      -- Behind a word all three tests start anew.
      have hmore := @ih (some x) (by rw [after_word]; exact .inLine hp s.indent)
      have hclose : x ≠ .closeScope := by rintro rfl; cases hp
      have hdone : (s.after (.word x)).unfinished = [] := by rw [after_word]; rfl
      simpa [-after, Piece.lexeme, Piece.isRemark, Lexeme.isComment_eq_false hp,
        Lexeme.remember_of_isContent prev hp, hclose, hdone] using hmore
    | remark text own =>
      -- The only case in which the tests of `Fixed` say something about the end of the list.
      have hmore := ih (hs.after_remark text own)
      rw [hs.unfinished_after_remark] at hmore
      simp only [Piece.lexeme, Piece.isRemark, Lexeme.remember, Lexeme.isComment, if_true, true_implies,
        hs.level_iff, List.map_eq_nil_iff, reduceCtorEq, false_implies, true_and, and_true]
      constructor
      · rintro ⟨⟨hopen, hclose, hlast⟩, hfixed⟩
        obtain ⟨hfilled, hlevel, hend⟩ := hmore.1 ⟨hfixed, hlast⟩
        exact ⟨hfilled, ⟨⟨hopen, hclose⟩, hlevel⟩, hend⟩
      · rintro ⟨hfilled, ⟨⟨hopen, hclose⟩, hlevel⟩, hend⟩
        obtain ⟨hfixed, hlast⟩ := hmore.2 ⟨hfilled, hlevel, hend⟩
        exact ⟨⟨hopen, hclose, hlast⟩, hfixed⟩
    | opens =>
      have hmore := ih (hs.after_opens (held_eq_nil_of_isOpen (hopens rfl)))
      have hdone : (s.after .opens).unfinished = [] := by cases s <;> rfl
      simpa [-after, Piece.lexeme, Piece.isRemark, Lexeme.remember, Lexeme.isComment, hdone] using hmore
    | closes =>
      -- Directly behind its start the end of a scope closes nothing, and both are lost.
      by_cases hprev : prev = some .openScope
      · refine iff_of_false (fun h => h.1.2.1 rfl hprev) fun h => ?_
        subst hprev
        cases hs with
        | opened depth => exact absurd (h.1.1 rfl _ _ _ rfl) (Nat.not_succ_le_self depth)
        | inLine hx | remarked hx => cases hx
      · obtain ⟨hrecalls, hle⟩ := hs.after_closes hallows hprev
        have hmore := ih hrecalls
        have hdone : (s.after .closes).unfinished = [] := by
          cases s <;> first | exact hallows.elim | rfl
        have hcontent : Piece.closes = .closes → ∀ depth indent idle, s = fresh depth indent idle →
            indent ≤ depth := fun _ => hle
        rw [and_iff_right hcontent]
        simpa [-after, Piece.lexeme, Piece.isRemark, Lexeme.remember, Lexeme.isComment, hdone, hprev]
          using hmore
    | ends =>
      have hmore := ih (hs.after_ends hallows)
      have hdone : (s.after .ends).unfinished = [] := by cases s <;> rfl
      simpa [-after, Piece.lexeme, Piece.isRemark, Lexeme.remember, Lexeme.isComment, hdone] using hmore

end Spot

end EntitySchema
