import EntitySchema.Proofs.Canonical.Remarks
/-!
  Pieces that are settled as they stand.

  To settle pieces holds every mark back until the next word, so two things can change: a remark between a
  mark and the word behind it comes before the mark, and marks that lead back to where they started leave only
  the end of a line.  The second does not happen where scopes open on settled ground (`Founded`) and hold
  content (`Filled`): then the marks that are held back at a spot are just those that were passed, and each
  further one joins them at the end,

      (s.after p).held = s.held ++ [p]     for a mark p

  (`held_after`).  Remarks are then all that can be out of place.

  1. **The same lexemes.**  If no mark in front of a remark is held back (`Steady`), the settled pieces spell
     `s.held ++ ps`, and at the end of a line that only a remark has ended its end (`map_lexeme_settle`).

  2. **The same text.**  The settled pieces are written at a spot that `Lags` behind the spot of the pieces by
     the marks that are held back.  What is written for a word is the same from both spots; what is written
     for a remark is the same exactly if it stands on the level of the line before it (`Lags.lead_cases`).  So
     the texts are equal exactly if every remark does (`Level`, `tail_settle_iff`).

  Main statements: `map_lexeme_settle` and `tail_settle_iff`, both for founded and filled pieces.
-/

namespace EntitySchema

namespace Spot

/-- The marks that were passed since the last word and are not settled yet. -/
def held : Spot → List Piece
  | fresh depth indent idle => Piece.marks depth indent idle
  | top | inLine _ | remarked _ => []

/-- A scope opens only where no mark is held back. -/
def Founded (s : Spot) : List Piece → Prop
  | [] => True
  | p :: ps => (p = .opens → s.held = []) ∧ (s.after p).Founded ps

/-- A scope closes only behind content of its own. -/
def Filled (s : Spot) : List Piece → Prop
  | [] => True
  | p :: ps => (p = .closes → ∀ depth indent idle, s = fresh depth indent idle → indent ≤ depth) ∧
      (s.after p).Filled ps

/-- Every remark stands on the level of the line before it. -/
def Level (s : Spot) : List Piece → Prop
  | [] => True
  | p :: ps => (p.isRemark → ∀ depth indent idle, s = fresh depth indent idle → indent = depth) ∧
      (s.after p).Level ps

/-- No mark before a remark is held back. -/
def Steady (s : Spot) : List Piece → Prop
  | [] => True
  | p :: ps => (p.isRemark → s.held = []) ∧ (s.after p).Steady ps

/-! ## Marks that are held back -/

/-- There are no marks between two lines only if nothing was written and the level is the same. -/
theorem eq_and_idle_of_marks_eq_nil {depth level : Nat} {idle : Bool}
    (h : Piece.marks depth level idle = []) : level = depth ∧ idle = true := by
  unfold Piece.marks at h
  split at h
  · cases h
  · obtain ⟨hends, hcloses⟩ := List.append_eq_nil_iff.1 h
    rw [List.replicate_eq_nil_iff] at hcloses
    cases idle with
    | true => exact ⟨by omega, rfl⟩
    | false => cases hends

/-- A line one level deeper is led to by the start of a scope alone. -/
theorem marks_deeper (depth : Nat) (idle : Bool) : Piece.marks depth (depth + 1) idle = [.opens] :=
  if_pos (Nat.lt_succ_self depth)

/-- A mark of founded and filled pieces is held back behind those before it. -/
theorem held_after {s : Spot} {p : Piece} (hp : p = .opens ∨ p = .closes ∨ p = .ends)
    (hallows : s.Allows p) (hfounded : p = .opens → s.held = [])
    (hfilled : p = .closes → ∀ depth indent idle, s = fresh depth indent idle → indent ≤ depth) :
    (s.after p).held = s.held ++ [p] := by
  rcases hp with rfl | rfl | rfl
  · have hnone := hfounded rfl
    -- A scope opens where nothing is held back, so its mark is the only one.
    cases s with
    | top => rfl
    | inLine depth | remarked depth => exact marks_deeper depth false
    | fresh depth indent idle =>
      obtain ⟨rfl, rfl⟩ := eq_and_idle_of_marks_eq_nil hnone
      rw [hnone]
      exact marks_deeper indent true
  · cases s with
    | top | inLine | remarked => exact hallows.elim
    | fresh depth indent idle =>
      -- One scope more is to be closed than before.
      have hle := hfilled rfl depth indent idle rfl
      have hpos : 0 < indent := hallows
      have hmore : depth - (indent - 1) = depth - indent + 1 := by omega
      simp only [held, after, Piece.marks]
      rw [if_neg (by omega : ¬ depth < indent - 1), if_neg (by omega : ¬ depth < indent), hmore,
        List.replicate_succ', List.append_assoc]
  · cases s with
    | top | fresh => exact hallows.elim
    | inLine depth | remarked depth => simp [held, Piece.marks]

/-! ## Levels -/

/-- No word stands more than one level deeper than the line before it, if every scope is founded. -/
theorem stepwise_of_founded {s : Spot} {ps : List Piece} (h : s.Founded ps)
    (hnear : ∀ depth indent idle, s = fresh depth indent idle → indent ≤ depth + 1) :
    s.Stepwise ps := by
  induction ps generalizing s with
  | nil => trivial
  | cons p ps ih =>
    obtain ⟨hfounded, h⟩ := h
    refine ⟨fun depth indent idle _ hs _ => hnear depth indent idle hs, ih h ?_⟩
    intro depth indent idle hs
    cases s with
    | top | inLine | remarked => cases p <;> cases hs <;> omega
    | fresh d i b =>
      have hle := hnear d i b rfl
      cases p with
      | word => cases hs
      | remark | ends => cases hs; exact hle
      | closes => cases hs; omega
      | opens =>
        obtain ⟨rfl, rfl⟩ := eq_and_idle_of_marks_eq_nil (hfounded rfl)
        cases hs
        exact Nat.le_refl _

/-! ## Settled lexemes -/

/-- The marks due in front of a word are those that are held back, but behind a remark, where the line still
has to end. -/
theorem due_eq_held {s : Spot} (h : ∀ depth, s ≠ remarked depth) : s.due s.indent = s.held := by
  cases s with
  | top | inLine | fresh => rfl
  | remarked depth => exact absurd rfl (h depth)

/-- A word never stands behind a remark on the same line. -/
theorem ne_remarked_of_allows {s : Spot} {x : Lexeme} (h : s.Allows (.word x)) :
    ∀ depth, s ≠ remarked depth := by
  rintro depth rfl
  exact h

/-- A mark is held back, and nothing settles. -/
theorem settled_mark (s : Spot) {p : Piece} (hp : p = .opens ∨ p = .closes ∨ p = .ends) :
    s.settled p = [] := by
  rcases hp with rfl | rfl | rfl <;> cases s <;> rfl

/-- How a remark stands once it is settled: on a line of its own if no line is open. -/
def settledOwn (own : Bool) : Spot → Bool
  | inLine _ => own
  | top | remarked _ | fresh _ _ _ => true

/-- A remark is settled at once, in front of the marks that are held back. -/
theorem settled_remark (s : Spot) (text : String) (own : Bool) :
    s.settled (.remark text own) = [.remark text (s.settledOwn own)] := by
  cases s <;> rfl

/-- Founded, filled and steady pieces are settled as the same lexemes, but for the end of a line behind
which there is a remark and nothing else. -/
theorem map_lexeme_settle {s : Spot} {ps : List Piece} (horderly : s.Orderly ps)
    (hfounded : s.Founded ps) (hfilled : s.Filled ps) (hsteady : s.Steady ps) :
    (s.settle ps).map Piece.lexeme =
      (s.held ++ ps ++ (s.reach ps).unfinished).map Piece.lexeme := by
  induction ps generalizing s with
  | nil =>
    have hindent : s.indent = 0 := horderly
    cases s with
    | top | inLine => rfl
    | remarked depth =>
      obtain rfl : depth = 0 := hindent
      rfl
    | fresh depth indent idle =>
      obtain rfl : indent = 0 := hindent
      simp [settle, held, reach, unfinished]
  | cons p ps ih =>
    obtain ⟨hallows, -, horderly⟩ := horderly
    obtain ⟨hopens, hfounded⟩ := hfounded
    obtain ⟨hcloses, hfilled⟩ := hfilled
    obtain ⟨hremark, hsteady⟩ := hsteady
    have hrest := ih horderly hfounded hfilled hsteady
    -- A mark is held back together with those before it.
    have of_mark : p = .opens ∨ p = .closes ∨ p = .ends → (s.settle (p :: ps)).map Piece.lexeme =
        (s.held ++ p :: ps ++ (s.reach (p :: ps)).unfinished).map Piece.lexeme := by
      intro hp
      rw [settle, settled_mark s hp, List.nil_append, hrest, held_after hp hallows hopens hcloses]
      simp [reach_cons]
    cases p with
    | word x =>
      -- Content lets out all that was held back.
      have hword : (s.after (.word x)).held = [] := by rw [after_word]; rfl
      rw [settle, settled, due_eq_held (ne_remarked_of_allows hallows), List.map_append, hrest, hword,
        reach_cons]
      simp
    | remark text own =>
      have hnone := hremark rfl
      have hnone' : (s.after (.remark text own)).held = [] := by
        cases s with
        | top => rfl
        | inLine | remarked => rfl
        | fresh => exact hnone
      rw [settle, settled_remark, List.map_append, hrest, hnone, hnone', reach_cons]
      simp [Piece.lexeme]
    | opens => exact of_mark (Or.inl rfl)
    | closes => exact of_mark (Or.inr (Or.inl rfl))
    | ends => exact of_mark (Or.inr (Or.inr rfl))

/-! ## Settled texts -/

/-- What was settled so far leads to the second spot, the pieces themselves to the first. -/
inductive Lags : Spot → Spot → Prop where
  | top : Lags top top
  | topOpened : Lags (fresh 0 1 true) top
  | first : Lags (fresh 0 0 true) (fresh 0 0 true)
  | firstOpened : Lags (fresh 0 1 true) (fresh 0 0 true)
  | inLine (depth : Nat) : Lags (inLine depth) (inLine depth)
  | inLineMarked {depth indent : Nat} (h : indent ≤ depth + 1) :
      Lags (fresh depth indent false) (inLine depth)
  | remarked (depth : Nat) : Lags (remarked depth) (remarked depth)
  | remarkedMarked {depth indent : Nat} (h : indent ≤ depth + 1) :
      Lags (fresh depth indent false) (remarked depth)

/-- Scopes that close make the next line shallower, one level each. -/
theorem tail_replicate_closes (n depth indent : Nat) (idle : Bool) (ps : List Piece) :
    (fresh depth indent idle).tail (List.replicate n .closes ++ ps) =
      (fresh depth (indent - n) idle).tail ps := by
  induction n generalizing indent with
  | zero => rfl
  | succ n ih =>
    rw [List.replicate_succ, List.cons_append, tail, written, List.nil_append, after, ih,
      Nat.sub_sub, Nat.add_comm 1 n]

/-- The marks between two lines lead from the end of the first one to the start of the second. -/
theorem tail_marks {depth indent : Nat} (h : indent ≤ depth + 1) (ps : List Piece) :
    (inLine depth).tail (Piece.marks depth indent false ++ ps) =
        (fresh depth indent false).tail ps ∧
      (remarked depth).tail (Piece.marks depth indent false ++ ps) =
        (fresh depth indent false).tail ps := by
  unfold Piece.marks
  split
  · obtain rfl : indent = depth + 1 := by omega
    exact ⟨rfl, rfl⟩
  · have hclosed := tail_replicate_closes (depth - indent) depth depth false ps
    rw [Nat.sub_sub_self (by omega)] at hclosed
    exact ⟨hclosed, hclosed⟩

namespace Lags

/-- The marks that are held back lead from the one spot to the other. -/
theorem tail_held {s s' : Spot} (h : Lags s s') (ps : List Piece) :
    s'.tail (s.held ++ ps) = s.tail ps := by
  cases h with
  | top | topOpened | first | firstOpened | inLine | remarked => rfl
  | inLineMarked h => exact (tail_marks h ps).1
  | remarkedMarked h => exact (tail_marks h ps).2

/-- A remark takes both spots on. -/
theorem after_remark {s s' : Spot} (h : Lags s s') (text : String) (own own' : Bool) :
    Lags (s.after (.remark text own)) (s'.after (.remark text own')) := by
  cases h with
  | top | first => exact .first
  | topOpened | firstOpened => exact .firstOpened
  | inLine depth | remarked depth => exact .remarked depth
  | inLineMarked h | remarkedMarked h => exact .remarkedMarked h

/-- A mark takes the first spot on and is held back from the second. -/
theorem after_mark {s s' : Spot} (h : Lags s s') {p : Piece}
    (hp : p = .opens ∨ p = .closes ∨ p = .ends) (hallows : s.Allows p)
    (hfounded : p = .opens → s.held = [])
    (hfilled : p = .closes → ∀ depth indent idle, s = fresh depth indent idle → indent ≤ depth) :
    Lags (s.after p) s' := by
  rcases hp with rfl | rfl | rfl
  · cases h with
    | top => exact .topOpened
    | first => exact .firstOpened
    | inLine depth => exact .inLineMarked (Nat.le_refl _)
    | remarked depth => exact .remarkedMarked (Nat.le_refl _)
    | topOpened | firstOpened => cases hfounded rfl
    | inLineMarked | remarkedMarked => cases (eq_and_idle_of_marks_eq_nil (hfounded rfl)).2
  · cases h with
    | top | inLine | remarked => exact hallows.elim
    | first => exact absurd hallows (Nat.lt_irrefl 0)
    | topOpened | firstOpened => exact absurd (hfilled rfl 0 1 true rfl) (by decide)
    | inLineMarked h => exact .inLineMarked (by omega)
    | remarkedMarked h => exact .remarkedMarked (by omega)
  · cases h with
    | top | first | topOpened | firstOpened | inLineMarked | remarkedMarked => exact hallows.elim
    | inLine depth => exact .inLineMarked (Nat.le_succ _)
    | remarked depth => exact .remarkedMarked (Nat.le_succ _)

/-- In front of a remark the margin shows the level. -/
theorem lineStart_append_inj {a b : Nat} {x y : List Char}
    (h : lineStart a ++ '#' :: x = lineStart b ++ '#' :: y) : a = b := by
  have htake := congrArg (fun cs => (cs.drop 1).takeWhile (· = ' ')) h
  simp only [lineStart, List.cons_append, List.drop_succ_cons, List.drop_zero] at htake
  rw [(Lexer.span_margin (2 * a) _ (by simp)).1, (Lexer.span_margin (2 * b) _ (by simp)).1] at htake
  have := congrArg List.length htake
  simp only [List.length_replicate] at this
  omega

/-- A remark on the level of the line before it stands where it is settled, and any other one does not. -/
theorem lead_cases {s s' : Spot} (h : Lags s s') (own : Bool) :
    ((∀ depth indent idle, s = fresh depth indent idle → indent = depth) ∧
        s'.lead (s.settledOwn own) = s.lead own) ∨
      ((¬ ∀ depth indent idle, s = fresh depth indent idle → indent = depth) ∧
        ∀ x y, s'.lead (s.settledOwn own) ++ '#' :: x ≠ s.lead own ++ '#' :: y) := by
  -- Behind marks each of the two leads a comment in at a level of its own.
  have of_levels : ∀ {depth indent : Nat},
      ((∀ d i idle, fresh depth indent false = fresh d i idle → i = d) ∧
        lineStart depth = lineStart indent) ∨
      ((¬ ∀ d i idle, fresh depth indent false = fresh d i idle → i = d) ∧
        ∀ x y, lineStart depth ++ '#' :: x ≠ lineStart indent ++ '#' :: y) := by
    intro depth indent
    by_cases heq : indent = depth
    · subst heq
      exact Or.inl ⟨fun d i idle hs => by cases hs; rfl, rfl⟩
    · exact Or.inr ⟨fun hall => heq (hall _ _ _ rfl), fun x y hxy => heq (lineStart_append_inj hxy).symm⟩
  cases h with
  | top | first | inLine | remarked => exact Or.inl ⟨by simp, rfl⟩
  | topOpened | firstOpened => exact Or.inr ⟨by simp, by simp [lineStart]⟩
  | inLineMarked | remarkedMarked => exact of_levels

end Lags

/-- Founded and filled pieces `ps` keep their text when they are settled exactly if all remarks are level.  By
induction on the pieces; `s` is the spot of the pieces themselves and `s'` that of what was settled so far. -/
theorem tail_settle_iff {s s' : Spot} {ps : List Piece} (horderly : s.Orderly ps)
    (hfounded : s.Founded ps) (hfilled : s.Filled ps) (h : Lags s s') :
    s'.tail (s.settle ps) = s.tail ps ↔ s.Level ps := by
  induction ps generalizing s s' with
  | nil =>
    refine iff_of_true ?_ trivial
    have hindent : s.indent = 0 := horderly
    cases hs : s with
    | remarked depth =>
      subst hs
      obtain rfl : depth = 0 := hindent
      cases h
      rfl
    | top | inLine | fresh =>
      have hdue := due_eq_held (s := s) (by simp [hs])
      rw [hindent] at hdue
      rw [← hs, settle, hdue, ← List.append_nil s.held, h.tail_held]
  | cons p ps ih =>
    obtain ⟨hallows, -, horderly⟩ := horderly
    obtain ⟨hopens, hfounded⟩ := hfounded
    obtain ⟨hcloses, hfilled⟩ := hfilled
    -- Marks write nothing by themselves; only the spot moves on.
    have of_mark : p = .opens ∨ p = .closes ∨ p = .ends →
        (s'.tail (s.settle (p :: ps)) = s.tail (p :: ps) ↔ s.Level (p :: ps)) := by
      intro hp
      have hwritten : s.written p = [] := by rcases hp with rfl | rfl | rfl <;> rfl
      have hremark : p.isRemark = false := by rcases hp with rfl | rfl | rfl <;> rfl
      rw [settle, settled_mark s hp, List.nil_append, tail, hwritten, List.nil_append,
        ih horderly hfounded hfilled (h.after_mark hp hallows hopens hcloses), Level]
      simp [hremark]
    cases p with
    | word x =>
      have hword : s.Level (.word x :: ps) ↔ (s.after (.word x)).Level ps := by
        simp [Level, Piece.isRemark]
      rw [hword, settle, settled, due_eq_held (ne_remarked_of_allows hallows), List.append_assoc,
        h.tail_held, List.singleton_append, tail, tail, List.append_cancel_left_eq]
      rw [after_word] at horderly hfounded hfilled ⊢
      exact ih horderly hfounded hfilled (.inLine s.indent)
    | remark text own =>
      obtain ⟨cs, hcs⟩ : ∃ cs, Lexeme.remark text = '#' :: cs := by
        unfold Lexeme.remark
        split <;> exact ⟨_, rfl⟩
      rw [settle, settled_remark, List.singleton_append, tail, tail, written, written, Level]
      -- What is written before a remark shows whether both spots put it on the same level.
      rcases h.lead_cases own with ⟨hlevel, hlead⟩ | ⟨hlevel, hlead⟩
      · rw [hlead, List.append_cancel_left_eq,
          ih horderly hfounded hfilled (h.after_remark text own _)]
        exact ⟨fun hmore => ⟨fun _ => hlevel, hmore⟩, fun hmore => hmore.2⟩
      · refine iff_of_false ?_ fun hmore => hlevel (hmore.1 rfl)
        rw [hcs, List.append_assoc, List.append_assoc, List.cons_append, List.cons_append]
        exact hlead _ _
    | opens => exact of_mark (Or.inl rfl)
    | closes => exact of_mark (Or.inr (Or.inl rfl))
    | ends => exact of_mark (Or.inr (Or.inr rfl))

end Spot

end EntitySchema
