import EntitySchema.Proofs.Canonical.Stable
/-!
  Scopes without content.

  A page does not show a scope that opens and closes at once.  The level of the next line goes up and down
  again before anything is written on it, so all that is left of the marks is the end of the line before:

      squeeze (… opens closes …) = … ends …

  Without remarks, and if scopes open behind words only (`Headed`), this is all that settling changes
  (`settle_eq_squeeze`).  The induction follows the recursion of `squeeze`, so a scope without content is one
  case, and in every other case a piece stays: a word as it is, and a mark among the marks that are held back
  until the next word. Squeezing once is enough, `squeeze (squeeze ps) = squeeze ps`, because the end of a
  line that takes the place of a scope is no end of a scope and cannot make another one empty.

  Main statement: `settle_eq_squeeze`.
-/

namespace EntitySchema

/-- Pieces with the end of a line in place of every scope that closes at once. -/
def Piece.squeeze : List Piece → List Piece
  | [] => []
  | .opens :: .closes :: ps => .ends :: squeeze ps
  | p :: ps => p :: squeeze ps

/-- Scopes open behind words only. -/
def Spot.Headed (s : Spot) : List Piece → Prop
  | [] => True
  | p :: ps => (p = .opens → s.isOpen) ∧ (s.after p).Headed ps

namespace Piece

/-- A piece that is not the start of an empty scope stays. -/
theorem squeeze_cons {p : Piece} {ps : List Piece} (h : ∀ qs, p = .opens → ps ≠ .closes :: qs) :
    squeeze (p :: ps) = p :: squeeze ps := by
  cases p with
  | opens =>
    cases ps with
    | nil => rfl
    | cons q ps =>
      cases q with
      | closes => exact absurd rfl (h ps rfl)
      | word | remark | opens | ends => rfl
  | word | remark | closes | ends => rfl

/-- A squeezed list starts with a scope that closes only if the list does. -/
theorem exists_of_squeeze_eq_closes {ps qs : List Piece} (h : squeeze ps = .closes :: qs) :
    ∃ ps', ps = .closes :: ps' := by
  induction ps using squeeze.induct with
  | case1 => cases h
  | case2 => cases h
  | case3 p ps hne =>
    rw [squeeze_cons fun qs hp hq => hne qs hp hq] at h
    exact ⟨ps, by rw [(List.cons.inj h).1]⟩

/-- A squeezed list has nothing left to squeeze. -/
theorem squeeze_squeeze (ps : List Piece) : squeeze (squeeze ps) = squeeze ps := by
  induction ps using squeeze.induct with
  | case1 => rfl
  | case2 ps ih => rw [squeeze, squeeze_cons (by simp), ih]
  | case3 p ps hne ih =>
    rw [squeeze_cons fun qs hp hq => hne qs hp hq, squeeze_cons, ih]
    intro qs hp hq
    obtain ⟨ps', hps⟩ := exists_of_squeeze_eq_closes hq
    exact hne ps' hp hps

end Piece

namespace Spot

/-- On an open line no mark is held back. -/
theorem held_eq_nil_of_isOpen {s : Spot} (h : s.isOpen) : s.held = [] := by
  cases s with
  | top | inLine | remarked => rfl
  | fresh => cases h

/-- Scopes that open behind words are founded. -/
theorem founded_of_headed {s : Spot} {ps : List Piece} (h : s.Headed ps) : s.Founded ps := by
  induction ps generalizing s with
  | nil => trivial
  | cons p ps ih => exact ⟨fun hp => held_eq_nil_of_isOpen (h.1 hp), ih h.2⟩

/-- Scopes that open behind words also open there if there are remarks. -/
theorem headed_of_withoutRemarks {s s' : Spot} {ps : List Piece} (horderly : s.Orderly ps)
    (hs : Bare s s') (h : s'.Headed (Piece.withoutRemarks ps)) : s.Headed ps := by
  induction ps generalizing s s' with
  | nil => trivial
  | cons p ps ih =>
    obtain ⟨hallows, -, horderly⟩ := horderly
    cases hp : p.isRemark with
    | true =>
      cases p with
      | remark text own => exact ⟨by simp, ih horderly (hs.after_remark text own) h⟩
      | word | opens | closes | ends => cases hp
    | false =>
      rw [Piece.withoutRemarks_cons hp] at h
      refine ⟨fun hopens => ?_, ih horderly (hs.after hp hallows).2 h.2⟩
      have hopen := h.1 hopens
      cases hs with
      | top | first | fresh => cases hopen
      | inLine | remarked => rfl

/-- Behind an end the page is at a line of its own, no deeper than the line before it. -/
theorem after_end {s : Spot} {p : Piece} (hp : p = .closes ∨ p = .ends) (hallows : s.Allows p)
    (hle : ∀ depth indent idle, s = fresh depth indent idle → indent ≤ depth) :
    ∃ depth indent idle, s.after p = fresh depth indent idle ∧ indent ≤ depth := by
  rcases hp with rfl | rfl
  · cases s with
    | top | inLine | remarked => exact hallows.elim
    | fresh depth indent idle =>
      exact ⟨_, _, _, rfl, (Nat.sub_le indent 1).trans (hle _ _ _ rfl)⟩
  · cases s with
    | top | fresh => exact hallows.elim
    | inLine | remarked => exact ⟨_, _, _, rfl, Nat.le_refl _⟩

/-- Settled pieces are squeezed, behind the marks that are held back at `s`.  Without remarks no spot is ever
`remarked`, and no fresh line is deeper than the line before it until a scope opens. -/
theorem settle_eq_squeeze {s : Spot} {ps : List Piece} (horderly : s.Orderly ps)
    (hheaded : s.Headed ps) (hbare : ∀ p ∈ ps, p.isRemark = false) (hs : ∀ depth, s ≠ remarked depth)
    (hle : ∀ depth indent idle, s = fresh depth indent idle → indent ≤ depth) :
    s.settle ps = s.held ++ Piece.squeeze ps := by
  induction ps using Piece.squeeze.induct generalizing s with
  | case1 =>
    have hindent : s.indent = 0 := horderly
    have hdue := due_eq_held hs
    rw [hindent] at hdue
    rw [settle, hdue, Piece.squeeze, List.append_nil]
  | case2 ps ih =>
    -- A scope without content: neither mark is written, and the line before it stays open.
    obtain ⟨-, -, hcloses, -, horderly⟩ := horderly
    obtain ⟨hopen, -, hheaded⟩ := hheaded
    cases s with
    | top | fresh => cases hopen rfl
    | remarked depth => exact absurd rfl (hs depth)
    | inLine depth =>
      have hmore := ih horderly hheaded
        (fun p hp => hbare p (List.mem_cons_of_mem _ (List.mem_cons_of_mem _ hp))) (by simp)
        (by simp)
      rw [settle, settle]
      exact hmore.trans (by simp [held, Piece.marks, Piece.squeeze])
  | case3 p ps hne ih =>
    rw [Piece.squeeze_cons fun qs hp hq => hne qs hp hq]
    have hbare' := fun q hq => hbare q (List.mem_cons_of_mem p hq)
    obtain ⟨hallows, -, horderly⟩ := horderly
    obtain ⟨hopen, hheaded⟩ := hheaded
    -- A mark joins those that are held back until something is written.
    have of_mark : p = .closes ∨ p = .ends → s.settle (p :: ps) = s.held ++ p :: Piece.squeeze ps := by
      intro hp
      have hmark : p = .opens ∨ p = .closes ∨ p = .ends := Or.inr hp
      have hafter := held_after hmark hallows (fun ho => held_eq_nil_of_isOpen (hopen ho)) fun _ => hle
      obtain ⟨depth, indent, idle, hfresh, hindent⟩ := after_end hp hallows hle
      rw [settle, settled_mark s hmark, List.nil_append, ih horderly hheaded hbare' ?_ ?_, hafter,
        List.append_assoc, List.singleton_append]
      · rw [hfresh]
        simp
      · rw [hfresh]
        rintro _ _ _ ⟨⟩
        exact hindent
    cases p with
    | remark => cases hbare _ List.mem_cons_self
    | closes => exact of_mark (Or.inl rfl)
    | ends => exact of_mark (Or.inr rfl)
    | word x =>
      have hafter : (s.after (.word x)).held = [] := by rw [after_word]; rfl
      rw [settle, settled, due_eq_held hs, List.append_assoc, List.singleton_append,
        ih horderly hheaded hbare' (by rw [after_word]; simp) (by rw [after_word]; simp), hafter,
        List.nil_append]
    | opens =>
      cases s with
      | top | fresh => cases hopen rfl
      | remarked depth => exact absurd rfl (hs depth)
      | inLine depth =>
        -- The scope has content, and its first word is what settles the mark.
        cases ps with
        | nil => cases horderly
        | cons q ps =>
          cases q with
          | remark => cases hbare' _ List.mem_cons_self
          | opens => cases hheaded.1 rfl
          | closes => exact absurd rfl (hne ps rfl)
          | ends => exact horderly.1.elim
          | word x =>
            have hmore := ih (s := inLine (depth + 1)) ⟨trivial, horderly.2⟩ ⟨by simp, hheaded.2⟩ hbare'
              (by simp) (by simp)
            rw [← (show _ = Piece.squeeze (.word x :: ps) from hmore)]
            simp [settle, held, marks_deeper]

end Spot

end EntitySchema
