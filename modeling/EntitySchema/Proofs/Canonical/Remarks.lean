import EntitySchema.Proofs.Canonical.Orderly
/-!
  Pieces without their remarks.

  Remarks carry no meaning, so most of what is said about a token list is said of what is left without them.
  A remark moves the page all the same: behind it a fresh line starts.  `Bare s s'` says that the page is at
  `s` with the remarks and at `s'` without them.  The two are the same, but for two cases: in front of
  everything remarks lead from `top` to a fresh first line, and behind an open line from `inLine depth` to
  `remarked depth`.

  A remark takes the first spot on and leaves the second where it is (`Bare.after_remark`); every other piece
  takes both on (`Bare.after`), and if it can come next with the remarks, it can do so without them.  With
  these two steps facts about pieces are carried over, by induction on the pieces:
  * what is left is orderly (`orderly_withoutRemarks`),
  * what is left is settled alike, except that a remark behind a line at the end of everything also ends that
    line,

      withoutRemarks (s.settle ps) = s'.settle (withoutRemarks ps) ++ (s.reach ps).unfinished

  (`withoutRemarks_settle`).
-/

namespace EntitySchema

namespace Piece

/-- The piece carries no meaning. -/
def isRemark : Piece → Bool
  | remark _ _ => true
  | _ => false

/-- The pieces that are no remarks. -/
def withoutRemarks (ps : List Piece) : List Piece := ps.filter fun p => !p.isRemark

/-- The pieces of comments are remarks, and those of other lexemes are not. -/
theorem isRemark_ofLexeme (own : Bool) (x : Lexeme) : (ofLexeme own x).isRemark = x.isComment := by
  cases x <;> rfl

/-- A remark is left out. -/
theorem withoutRemarks_cons_remark (text : String) (own : Bool) (ps : List Piece) :
    withoutRemarks (remark text own :: ps) = withoutRemarks ps := rfl

/-- Every other piece is kept. -/
theorem withoutRemarks_cons {p : Piece} (h : p.isRemark = false) (ps : List Piece) :
    withoutRemarks (p :: ps) = p :: withoutRemarks ps := by
  simp [withoutRemarks, h]

/-- Remarks are left out of each part. -/
theorem withoutRemarks_append (ps qs : List Piece) :
    withoutRemarks (ps ++ qs) = withoutRemarks ps ++ withoutRemarks qs := by
  simp [withoutRemarks]

/-- Where there is no remark none stands on the line of the piece before. -/
theorem not_trails_withoutRemarks (ps : List Piece) : ¬ Trails (withoutRemarks ps) := by
  rintro ⟨text, rest, h⟩
  have hm : remark text false ∈ withoutRemarks ps := h ▸ List.mem_cons_self
  have := (List.mem_filter.1 hm).2
  cases this

/-- The marks between two lines are no remarks. -/
theorem withoutRemarks_marks (depth level : Nat) (idle : Bool) :
    withoutRemarks (marks depth level idle) = marks depth level idle := by
  refine List.filter_eq_self.2 fun p hp => ?_
  unfold marks at hp
  split at hp
  · obtain rfl := List.mem_singleton.1 hp
    rfl
  · rcases List.mem_append.1 hp with hp | hp
    · cases idle with
      | true => cases hp
      | false =>
        obtain rfl := List.mem_singleton.1 hp
        rfl
    · obtain rfl := List.eq_of_mem_replicate hp
      rfl

end Piece

/-- The remarks among the pieces are where the comments are among the tokens. -/
theorem map_isRemark_piecesFrom (line : Option Nat) (ts : List Token) :
    (piecesFrom line ts).map Piece.isRemark = ts.map Token.isComment := by
  induction ts generalizing line with
  | nil => rfl
  | cons t ts ih => simp [piecesFrom, ih, Piece.isRemark_ofLexeme, Token.isComment]

/-- The pieces of what is left without comments are what is left without remarks. -/
theorem piecesFrom_withoutComments (line line' : Option Nat) (ts : List Token) :
    piecesFrom line (Token.withoutComments ts) = Piece.withoutRemarks (piecesFrom line' ts) := by
  induction ts generalizing line line' with
  | nil => rfl
  | cons t ts ih =>
    cases ht : t.lexeme.isComment with
    | true =>
      have hremark := Piece.isRemark_ofLexeme (line'.all (· < t.position.line)) t.lexeme
      rw [ht] at hremark
      rw [Token.withoutComments, List.filter_cons, if_neg (by simp [Token.isComment, ht]), piecesFrom,
        Piece.withoutRemarks, List.filter_cons, if_neg (by simp [hremark])]
      exact ih line _
    | false =>
      have hremark := Piece.isRemark_ofLexeme (line'.all (· < t.position.line)) t.lexeme
      rw [ht] at hremark
      -- Whether a line is its own matters to comments only.
      have hsame : ∀ own own', Piece.ofLexeme own t.lexeme = Piece.ofLexeme own' t.lexeme := by
        cases hx : t.lexeme with
        | comment => rw [hx] at ht; cases ht
        | symbol | number | string | operator | openScope | closeScope | endLine | openMeta
        | closeMeta => exact fun _ _ => rfl
      rw [Token.withoutComments, List.filter_cons, if_pos (by simp [Token.isComment, ht]), piecesFrom,
        piecesFrom, Piece.withoutRemarks_cons hremark, hsame _ (line'.all (· < t.position.line))]
      exact congrArg _ (ih _ _)

namespace Spot

/-- The page is at the first spot with remarks and at the second without them. -/
inductive Bare : Spot → Spot → Prop where
  | top : Bare top top
  | first : Bare (fresh 0 0 true) top
  | inLine (depth : Nat) : Bare (inLine depth) (inLine depth)
  | remarked (depth : Nat) : Bare (remarked depth) (inLine depth)
  | fresh (depth indent : Nat) (idle : Bool) : Bare (fresh depth indent idle) (fresh depth indent idle)

/-- A remark is written on the page with remarks alone. -/
theorem Bare.after_remark {s s' : Spot} (h : Bare s s') (text : String) (own : Bool) :
    Bare (s.after (.remark text own)) s' := by
  cases h with
  | top | first => exact .first
  | inLine depth | remarked depth => exact .remarked depth
  | fresh depth indent idle => exact .fresh depth indent idle

/-- A piece that is no remark is written on both pages.  It can come next without the remarks if it can come
next with them: the one thing that a remark forbids, more content on its line, is not forbidden without it. -/
theorem Bare.after {s s' : Spot} (h : Bare s s') {p : Piece} (hp : p.isRemark = false)
    (hallows : s.Allows p) : s'.Allows p ∧ Bare (s.after p) (s'.after p) := by
  cases p with
  | remark => cases hp
  | word x =>
    cases h with
    | top | first | inLine | fresh => exact ⟨trivial, .inLine _⟩
    | remarked => exact hallows.elim
  | opens =>
    cases h with
    | top | first | inLine | fresh | remarked => exact ⟨trivial, .fresh _ _ _⟩
  | closes =>
    cases h with
    | top | inLine | remarked => exact hallows.elim
    | first => exact absurd hallows (Nat.lt_irrefl 0)
    | fresh => exact ⟨hallows, .fresh _ _ _⟩
  | ends =>
    cases h with
    | top | first | fresh => exact hallows.elim
    | inLine | remarked => exact ⟨trivial, .fresh _ _ _⟩

/-- What is left without remarks is orderly. -/
theorem orderly_withoutRemarks {s s' : Spot} {ps : List Piece} (h : s.Orderly ps) (hs : Bare s s') :
    s'.Orderly (Piece.withoutRemarks ps) := by
  induction ps generalizing s s' with
  | nil =>
    have hindent : s.indent = s'.indent := by cases hs <;> rfl
    exact hindent.symm.trans h
  | cons p ps ih =>
    obtain ⟨hallows, -, h⟩ := h
    cases hp : p.isRemark with
    | true =>
      cases p with
      | remark text own => exact ih h (hs.after_remark text own)
      | word | opens | closes | ends => cases hp
    | false =>
      obtain ⟨hallows', hafter⟩ := hs.after hp hallows
      rw [Piece.withoutRemarks_cons hp]
      exact ⟨hallows', fun _ => Piece.not_trails_withoutRemarks ps, ih h hafter⟩

/-- What is left of orderly tokens without their comments is orderly. -/
theorem orderly_withoutComments {ts : List Token} (h : top.Orderly (pieces ts)) :
    top.Orderly (pieces (Token.withoutComments ts)) := by
  rw [pieces, piecesFrom_withoutComments none none]
  exact orderly_withoutRemarks h .top

/-- The spot after pieces. -/
def reach (s : Spot) (ps : List Piece) : Spot := ps.foldl after s

/-- The first piece first. -/
theorem reach_cons (s : Spot) (p : Piece) (ps : List Piece) :
    s.reach (p :: ps) = (s.after p).reach ps := rfl

/-- What a remark behind an open line adds at the end of everything. -/
def unfinished : Spot → List Piece
  | remarked _ => [.ends]
  | top | inLine _ | fresh _ _ _ => []

/-- To settle pieces and leave the remarks out is to leave them out and settle the rest. -/
theorem withoutRemarks_settle {s s' : Spot} {ps : List Piece} (h : s.Orderly ps) (hs : Bare s s') :
    Piece.withoutRemarks (s.settle ps) =
      s'.settle (Piece.withoutRemarks ps) ++ (s.reach ps).unfinished := by
  induction ps generalizing s s' with
  | nil =>
    cases hs with
    | top | first | inLine => rfl
    | fresh depth indent idle =>
      simpa [settle, reach, unfinished, due, Piece.withoutRemarks] using
        Piece.withoutRemarks_marks depth 0 idle
    | remarked depth =>
      -- A remark that comes last is followed by the end of its line.
      obtain rfl : depth = 0 := h
      rfl
  | cons p ps ih =>
    obtain ⟨hallows, -, h⟩ := h
    cases p with
    | remark text own =>
      have hsettled : ∃ own', s.settled (.remark text own) = [.remark text own'] := by
        cases s <;> exact ⟨_, rfl⟩
      obtain ⟨own', hsettled⟩ := hsettled
      rw [settle, hsettled, List.singleton_append, Piece.withoutRemarks_cons_remark,
        Piece.withoutRemarks_cons_remark, ih h (hs.after_remark text own)]
      rfl
    | word x =>
      obtain ⟨-, hafter⟩ := hs.after (p := .word x) rfl hallows
      have hdue : Piece.withoutRemarks (s.due s.indent) = s'.due s'.indent := by
        cases hs with
        | top | first | inLine => rfl
        | fresh depth indent idle => exact Piece.withoutRemarks_marks depth indent idle
        | remarked => exact hallows.elim
      rw [Piece.withoutRemarks_cons (p := .word x) rfl ps, settle, settled, settle, settled,
        Piece.withoutRemarks_append, Piece.withoutRemarks_append, hdue, ih h hafter, ← List.append_assoc]
      rfl
    | opens | closes | ends =>
      obtain ⟨-, hafter⟩ := hs.after rfl hallows
      have hnone : ∀ r : Spot, r.settled .opens = [] ∧ r.settled .closes = [] ∧ r.settled .ends = [] := by
        intro r
        cases r <;> exact ⟨rfl, rfl, rfl⟩
      rw [settle, Piece.withoutRemarks_cons rfl, settle]
      simp only [hnone, List.nil_append]
      exact ih h hafter

end Spot

end EntitySchema
