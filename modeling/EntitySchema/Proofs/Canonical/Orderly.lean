import EntitySchema.Proofs.Canonical.Settle
import EntitySchema.Proofs.Lexer.Steps
/-!
  What a lexer can report.

  While a lexer reads, its pieces lead from the top of a page to some spot, and the lexer `l` `Tracks` that
  spot `s`:
  * they agree on the open scopes, `l.depth = s.indent`,
  * and on whether a line is open, `l.ended = !s.isOpen`;
  * an open line ends before anything closes, so `l.depth ≤ l.target` on it;
  * and behind a remark nothing but a newline or another remark is left of the line.

  Each step keeps this, and what it reports is allowed at the spot (`TokenStep.tracks`, `SilentStep.tracks`).
  So a whole run reports orderly pieces (`orderly_of_reads`).  There the induction has to say a second thing,
  about places: whether a remark has a line of its own is told from the line of the token before it, and
  behind a word of several lines the lexer is on a later line than the word started on.

  Everything that is reported is also legible (`legible_of_reads`), since it was written in the text.

  Main statement: `legible_and_orderly_of_tokenize`.
-/

namespace EntitySchema

namespace Lexer

/-! ## Legible tokens -/

/-- What is left behind a newline and its margin was left in front of them. -/
theorem Lands.rest_suffix {l : Lexer} {margin level : Nat} {rest : List Char}
    (h : l.Lands margin rest level) : rest <:+ l.rest := by
  rw [h.1, ← List.cons_append]
  exact List.suffix_append _ _

/-- A step that reports a token leaves a part of the text. -/
theorem TokenStep.rest_suffix {l next : Lexer} {t : Token} (h : l.TokenStep t next) :
    next.rest <:+ l.rest := by
  cases h with
  | opens | closes | endsLast | closesLast => exact List.suffix_refl _
  | ends _ hlands => exact hlands.rest_suffix
  | @scans c cs _ _ hrest =>
    rw [hrest, ← Scan.taken_append_rest c cs]
    exact List.suffix_append _ _

/-- So does a silent step. -/
theorem SilentStep.rest_suffix {l next : Lexer} (h : l.SilentStep next) : next.rest <:+ l.rest := by
  cases h with
  | separator _ hrest =>
    rw [hrest]
    exact List.suffix_cons _ _
  | blank _ hrest =>
    rw [hrest, ← List.cons_append]
    exact List.suffix_append _ _
  | enters _ hlands => exact hlands.rest_suffix

/-- What is reported from a text without carriage returns can be written again. -/
theorem TokenStep.legible {l next : Lexer} {t : Token} (h : l.TokenStep t next) (hr : '\r' ∉ l.rest) :
    t.lexeme.Legible := by
  cases h with
  | opens | closes | ends | endsLast | closesLast => trivial
  | scans _ hrest _ hx => exact Scan.legible_of_ok (hrest ▸ hr) hx

/-- All that is reported from a text without carriage returns is legible. -/
theorem legible_of_reads {l last : Lexer} {ts : List Token} (h : Reads l ts last) (hr : '\r' ∉ l.rest) :
    ∀ t ∈ ts, t.lexeme.Legible := by
  induction h with
  | here => simp
  | token hstep _ ih =>
    have ht := tokenStep_of_step hstep
    intro u hu
    rcases List.mem_cons.1 hu with rfl | hu
    · exact ht.legible hr
    · exact ih (fun hm => hr (ht.rest_suffix.subset hm)) u hu
  | silent hstep _ ih =>
    exact ih fun hm => hr ((silentStep_of_step hstep).rest_suffix.subset hm)

/-! ## Places -/

/-- A token is placed where the lexer stood before it. -/
theorem TokenStep.position_eq {l next : Lexer} {t : Token} (h : l.TokenStep t next) :
    t.position = l.position := by
  cases h <;> rfl

/-- A lexer never goes back to an earlier line. -/
theorem TokenStep.line_le {l next : Lexer} {t : Token} (h : l.TokenStep t next) :
    l.position.line ≤ next.position.line := by
  cases h with
  | opens | closes | endsLast | closesLast => exact Nat.le_refl _
  | ends | scans => exact Position.line_le_advanceAll _ _

/-- Not silently either. -/
theorem SilentStep.line_le {l next : Lexer} (h : l.SilentStep next) :
    l.position.line ≤ next.position.line := by
  cases h with
  | separator | blank | enters => exact Position.line_le_advanceAll _ _

/-- Behind a word of several lines a lexer is on a later line. -/
theorem TokenStep.line_lt {l next : Lexer} {t : Token} (h : l.TokenStep t next)
    (hx : t.lexeme.isContent) (hlegible : t.lexeme.Legible) (hn : '\n' ∈ t.lexeme.chars) :
    l.position.line < next.position.line := by
  cases h with
  | opens | closes | ends | endsLast | closesLast => cases hx
  | scans _ _ _ hok => exact Position.line_lt_advanceAll (Scan.newline_mem_taken hok hx hlegible hn)

end Lexer

/-- A line is open at the spot. -/
def Spot.isOpen : Spot → Bool
  | inLine _ | remarked _ => true
  | top | fresh _ _ _ => false

namespace Lexer

/-! ## A lexer and its spot -/

/-- The lexer has read what leads to the spot. -/
structure Tracks (l : Lexer) (s : Spot) : Prop where
  depth_eq : l.depth = s.indent
  ended_eq : l.ended = !s.isOpen
  /-- An open line ends before anything closes. -/
  depth_le : s.isOpen → l.depth ≤ l.target
  /-- Behind a remark there is no more content on the line. -/
  remark_last : ∀ depth, s = .remarked depth →
    l.depth < l.target ∨ ∀ c ∈ l.rest.head?, c = '\n' ∨ c = '#'

/-- A lexer in front of a source is at the top of a page. -/
theorem tracks_ofSource (source : String) : (ofSource source).Tracks .top :=
  ⟨rfl, rfl, by simp [Spot.isOpen], by simp⟩

/-- A silent step moves no page. -/
theorem SilentStep.tracks {l next : Lexer} {s : Spot} (h : l.SilentStep next) (hl : l.Tracks s) :
    next.Tracks s := by
  obtain ⟨hdepth, hended, hle, hremark⟩ := hl
  cases h with
  | @separator c cs hat hrest hc =>
    refine ⟨hdepth, hended, hle, fun depth hs => ?_⟩
    -- The line behind a remark has no separators left.
    rcases hremark depth hs with hlt | hhead
    · omega
    · rcases hhead c (by simp [hrest]) with rfl | rfl
      · exact absurd hc (by decide)
      · exact absurd hc (by decide)
  | blank hat hrest hc =>
    refine ⟨hdepth, hended, hle, fun depth hs => Or.inr ?_⟩
    rintro d hd
    obtain rfl := Option.some.inj hd
    exact hc
  | enters hat hlands hopen =>
    have hlt : s.isOpen → l.depth < _ := fun hs => hopen.resolve_right (by simp [hended, hs])
    refine ⟨hdepth, hended, fun hs => Nat.le_of_lt (hlt hs), fun depth hs => Or.inl (hlt ?_)⟩
    rw [hs]
    rfl

/-- What is reported can come next at the spot, and the lexer is at the spot after it. -/
theorem TokenStep.tracks {l next : Lexer} {s : Spot} {t : Token} (h : l.TokenStep t next)
    (hl : l.Tracks s) (own : Bool) :
    s.Allows (.ofLexeme own t.lexeme) ∧ next.Tracks (s.after (.ofLexeme own t.lexeme)) := by
  obtain ⟨hdepth, hended, hle, hremark⟩ := hl
  -- A scope closes on a line that was entered, or at the end of the text.
  have of_closes : ∀ target, l.depth ≠ 0 → l.ended = true → s.Allows .closes ∧
      Tracks { l with target, depth := l.depth - 1 } (s.after .closes) := by
    intro target hpos hclosed
    cases s with
    | top => exact absurd hdepth hpos
    | inLine | remarked => cases hended.symm.trans hclosed
    | fresh depth indent idle =>
      have hindent : l.depth = indent := hdepth
      exact ⟨by simp only [Spot.Allows]; omega, by simp [hindent], hclosed, by simp [Spot.isOpen],
        by simp⟩
  -- A line ends where it is open, with a comment behind it or without.
  have of_ends : ∀ next : Lexer, l.ended = false → next.depth = l.depth → next.ended = true →
      s.Allows .ends ∧ next.Tracks (s.after .ends) := by
    intro next hopen hsame hnext
    cases s with
    | top | fresh => cases hended.symm.trans hopen
    | inLine depth | remarked depth =>
      exact ⟨trivial, by simpa [hsame] using hdepth, hnext, by simp [Spot.isOpen], by simp⟩
  cases h with
  | opens hlt =>
    cases s with
    | top | inLine | remarked | fresh =>
      exact ⟨trivial, congrArg (· + 1) hdepth, rfl, by simp [Piece.ofLexeme, Spot.isOpen],
        by simp [Piece.ofLexeme]⟩
  | closes hlt =>
    have hclosed : l.ended = true := by
      rw [hended, Bool.not_eq_true', ← Bool.not_eq_true]
      intro hs
      have := hle hs
      omega
    exact of_closes l.target (by omega) hclosed
  | ends hat hlands hlevel hopen => exact of_ends _ hopen rfl rfl
  | endsLast hat hrest hpos hopen => exact of_ends _ hopen rfl rfl
  | closesLast hat hrest hpos hclosed => exact of_closes 0 hpos hclosed
  | @scans c cs x hat hrest hc hx =>
    rcases Scan.isContent_or_isComment_of_ok hx with hcontent | hcomment
    · rw [Piece.ofLexeme_of_isContent own hcontent, Spot.after_word]
      have hword := Lexeme.isComment_eq_false hcontent
      refine ⟨?_, hdepth, by simp [hword, Spot.isOpen], fun _ => Nat.le_of_eq hat, by simp⟩
      cases s with
      | top | inLine | fresh => trivial
      | remarked depth =>
        -- Behind a remark the text goes on with a newline or another remark, never with content.
        rcases hremark depth rfl with hlt | hhead
        · omega
        · obtain rfl : c = '#' := (hhead c (by simp [hrest])).resolve_left hc
          cases hx
          cases hcontent
    · cases x with
      | comment text =>
        have hline := Scan.head?_rest_of_comment hx
        have hallows : s.Allows (.remark text own) := by cases s <;> trivial
        refine ⟨hallows, ?_⟩
        cases s with
        | top | fresh =>
          exact ⟨hdepth, by simpa [Lexeme.isComment, Piece.ofLexeme, Spot.isOpen] using hended,
            by simp [Piece.ofLexeme, Spot.isOpen], by simp [Piece.ofLexeme]⟩
        | inLine depth | remarked depth =>
          exact ⟨hdepth, by simpa [Lexeme.isComment, Piece.ofLexeme, Spot.isOpen] using hended,
            fun _ => Nat.le_of_eq hat, fun _ _ => Or.inr fun d hd => Or.inl (hline d hd)⟩
      | symbol | number | string | operator | openScope | closeScope | endLine | openMeta
      | closeMeta => cases hcomment

/-- A run that comes to its end reports orderly pieces.  The next remark stands on a line of its own if the
lexer is on a later line than its last token. -/
theorem orderly_of_reads {l last : Lexer} {ts : List Token} (h : Reads l ts last)
    (hend : last.step = .finished) (hlegible : ∀ t ∈ ts, t.lexeme.Legible) {line : Option Nat}
    {s : Spot} (hl : l.Tracks s) (hline : ∀ k ∈ line, k ≤ l.position.line) :
    s.Orderly (piecesFrom line ts) ∧
      ((∀ k ∈ line, k < l.position.line) → ¬ Piece.Trails (piecesFrom line ts)) := by
  induction h generalizing line s with
  | here l =>
    refine ⟨?_, ?_⟩
    · exact hl.depth_eq.symm.trans ((rest_and_depth_of_finished hend).2)
    · rintro - ⟨_, _, hnil⟩
      cases hnil
  | @token l next last t ts hstep _ ih =>
    have ht := tokenStep_of_step hstep
    obtain ⟨hallows, hnext⟩ := ht.tracks hl (line.all (· < t.position.line))
    -- The line of this token is what the next one is compared with.
    have hplace : ∀ k ∈ some t.position.line, k ≤ next.position.line := by
      intro k hk
      obtain rfl := Option.some.inj hk
      rw [ht.position_eq]
      exact ht.line_le
    obtain ⟨horderly, htrails⟩ := ih hend (fun u hu => hlegible u (List.mem_cons_of_mem t hu)) hnext hplace
    refine ⟨⟨hallows, fun hmany => htrails fun k hk => ?_, horderly⟩, ?_⟩
    · obtain rfl := Option.some.inj hk
      rw [ht.position_eq]
      obtain ⟨hx, hn⟩ := Piece.content_of_multiline hmany
      exact ht.line_lt hx (hlegible t List.mem_cons_self) hn
    · rintro hlt ⟨text, rest, hfirst⟩
      have hown := Piece.own_of_ofLexeme (List.cons.inj hfirst).1
      rw [ht.position_eq, Option.all_eq_false] at hown
      obtain ⟨k, hk, hnot⟩ := hown
      have := hlt k hk
      simp_all
  | silent hstep _ ih =>
    have hs := silentStep_of_step hstep
    obtain ⟨horderly, htrails⟩ := ih hend hlegible (hs.tracks hl)
      fun k hk => Nat.le_trans (hline k hk) hs.line_le
    exact ⟨horderly, fun hlt => htrails fun k hk => Nat.lt_of_lt_of_le (hlt k hk) hs.line_le⟩

end Lexer

/-- The tokens of a source are legible and their pieces orderly. -/
theorem legible_and_orderly_of_tokenize {source : String} {ts : List Token}
    (h : tokenize source = .ok ts) :
    (∀ t ∈ ts, t.lexeme.Legible) ∧ Spot.top.Orderly (pieces ts) := by
  obtain ⟨last, hreads, hend⟩ := Lexer.tokenize_eq_ok_iff.1 h
  have hlegible := Lexer.legible_of_reads hreads (SourceText.return_not_mem_withoutReturns _)
  exact ⟨hlegible,
    (Lexer.orderly_of_reads hreads hend hlegible (Lexer.tracks_ofSource source) (by simp)).1⟩

end EntitySchema
