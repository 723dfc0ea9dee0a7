import EntitySchema.Proofs.Canonical.Orderly
import EntitySchema.Proofs.Lexer.Munch
import Mathlib.Data.List.Induction
/-!
  Tokens tile their source.

  Between two tokens a lexer moves in many ways: character by character over blanks, over a newline and a
  whole margin at once, to the end of a line or to the next quote.  Yet nothing is lost on the way.  The text
  is the row

      gap₁ ++ word₁ ++ gap₂ ++ word₂ ++ … ++ gapₙ

  of the words that its tokens report, with nothing but layout in the gaps, and every token carries the place
  of its word, counted in the text itself.  `Tiles front text ts` says this of the text behind `front`; it is
  inductive in the tokens and mentions no lexer.

  The proof is in three parts.

  1. Places are a matter of the text (`Position.behind`): reading `front` from the start leads behind `front`
     (`advanceAll_start`), so "the lexer has passed `front`" and "its place is `behind front`" go together.

  2. One step passes some text (`Passes`): layout, if the step is silent or reports a mark
     (`SilentStep.exists_layout`), and otherwise the one word that it reports
     (`TokenStep.exists_layout_or_word`).

  3. A run is a tiling, by induction along its steps (`tiles_of_reads`).  Layout behind a mark or a silent
     step has no token to itself: it makes the gap in front of the next word wider, so the induction carries
     the gap along.

  The order of the places comes from a second induction (`isLE_of_reads`).  A word has at least one character,
  so words are strictly in order; marks take no room, so for them the order is weak.

  Main statement: `tokenize_tiles`.
-/

namespace EntitySchema

namespace Position

/-! ## Places in a text -/

/-- The place behind a text: a line for every newline, a column for every character since the last one. -/
def behind (front : List Char) : Position :=
  ⟨front.count '\n' + 1, (front.reverse.takeWhile (· ≠ '\n')).length + 1⟩

/-- Reading `front` from the start leads behind it: the fold over single characters is the count of newlines
and of the characters since the last one. -/
theorem advanceAll_start (front : List Char) : start.advanceAll front = behind front := by
  induction front using List.reverseRecOn with
  | nil => rfl
  | append_singleton front c ih =>
    rw [advanceAll_append, ih, advanceAll_cons, advanceAll_nil, advance]
    by_cases hc : c = '\n'
    · simp [hc, behind, nextLine]
    · simp [hc, behind, nextColumn]

/-- From behind `front`, reading `more` leads behind both. -/
theorem advanceAll_behind (front more : List Char) :
    (behind front).advanceAll more = behind (front ++ more) := by
  rw [← advanceAll_start, ← advanceAll_append, advanceAll_start]

/-- Strictly earlier: on an earlier line, or on the same line in an earlier column. -/
theorem compare_eq_lt_iff {p q : Position} : compare p q = .lt ↔
    p.line < q.line ∨ (p.line = q.line ∧ p.column < q.column) := by
  show (compare p.line q.line).then (compare p.column q.column) = .lt ↔ _
  rw [Ordering.then_eq_lt, Nat.compare_eq_lt, Nat.compare_eq_eq, Nat.compare_eq_lt]

/-- Not later: on an earlier line, or on the same line and not in a later column. -/
theorem isLE_compare_iff {p q : Position} : (compare p q).isLE ↔
    p.line < q.line ∨ (p.line = q.line ∧ p.column ≤ q.column) := by
  show ((compare p.line q.line).then (compare p.column q.column)).isLE ↔ _
  rw [Ordering.isLE_then_iff_or, Nat.compare_eq_lt, Nat.compare_eq_eq, Nat.isLE_compare]

/-- Every character leads on. -/
theorem compare_advance (p : Position) (c : Char) : compare p (p.advance c) = .lt := by
  rw [compare_eq_lt_iff, advance]
  split
  · exact Or.inl (Nat.lt_succ_self _)
  · exact Or.inr ⟨rfl, Nat.lt_succ_self _⟩

/-- Reading never leads back. -/
theorem isLE_compare_advanceAll (p : Position) (cs : List Char) :
    (compare p (p.advanceAll cs)).isLE := by
  induction cs generalizing p with
  | nil => exact isLE_compare_iff.2 (Or.inr ⟨rfl, Nat.le_refl _⟩)
  | cons c cs ih =>
    have hfirst := compare_eq_lt_iff.1 (compare_advance p c)
    have hmore := isLE_compare_iff.1 (ih (p.advance c))
    rw [advanceAll_cons, isLE_compare_iff]
    omega

/-- So does every text with characters in it. -/
theorem compare_advanceAll (p : Position) {cs : List Char} (h : cs ≠ []) :
    compare p (p.advanceAll cs) = .lt := by
  obtain ⟨c, cs, rfl⟩ := List.exists_cons_of_ne_nil h
  have hfirst := compare_eq_lt_iff.1 (compare_advance p c)
  have hmore := isLE_compare_iff.1 (isLE_compare_advanceAll (p.advance c) cs)
  rw [advanceAll_cons, compare_eq_lt_iff]
  omega

/-- The weak order of places is transitive. -/
theorem isLE_compare_trans {p q r : Position} (h : (compare p q).isLE) (h' : (compare q r).isLE) :
    (compare p r).isLE := by
  rw [isLE_compare_iff] at h h' ⊢
  omega

/-- What is strictly earlier stays so in front of what is not earlier than that. -/
theorem compare_lt_of_lt_of_isLE {p q r : Position} (h : compare p q = .lt)
    (h' : (compare q r).isLE) : compare p r = .lt := by
  rw [compare_eq_lt_iff] at h ⊢
  rw [isLE_compare_iff] at h'
  omega

end Position

/-! ## Tilings -/

/-- The token stands in the text: it is no structural mark. -/
def Token.isWritten (t : Token) : Bool := t.lexeme.isContent || t.lexeme.isComment

/-- What a scan finds is content or a comment, never a structural mark. -/
theorem Scan.isWritten_of_ok {c : Char} {cs : List Char} {x : Lexeme} {place : Position}
    (h : (ofChars c cs).result = .ok x) : (⟨x, place⟩ : Token).isWritten := by
  rcases isContent_or_isComment_of_ok h with hx | hx <;> simp [Token.isWritten, hx]

/-- The character is layout: a blank, a tab, a comma or a newline. -/
def Scan.isLayout (c : Char) : Bool := isSeparator c || c = '\n'

/-- Behind `front` the text is a row of words with layout between them.  The tokens report the words, each
with the place of its first character, and no word is cut short. -/
inductive Tiles : List Char → List Char → List Token → Prop where
  | layout {front gap : List Char} (hgap : ∀ c ∈ gap, Scan.isLayout c) : Tiles front gap []
  | word {front gap word rest : List Char} {t : Token} {ts : List Token}
      (hgap : ∀ c ∈ gap, Scan.isLayout c) (hplace : t.position = Position.behind (front ++ gap))
      (hword : t.lexeme.Spells word) (hhalts : t.lexeme.Halts rest)
      (more : Tiles (front ++ gap ++ word) rest ts) : Tiles front (gap ++ word ++ rest) (t :: ts)

namespace Lexer

variable {l next last : Lexer} {t : Token} {ts : List Token}

/-! ## What a step passes -/

/-- The lexer `l` has passed `text` and is `next` now: `text` was in front of it, and its place moved over
that. -/
def Passes (l next : Lexer) (text : List Char) : Prop :=
  l.rest = text ++ next.rest ∧ next.position = l.position.advanceAll text

/-- A lexer that stands behind `front` and passes `text` stands behind both. -/
theorem Passes.position_eq {front text : List Char} (h : l.Passes next text)
    (hplace : l.position = Position.behind front) :
    next.position = Position.behind (front ++ text) := by
  rw [h.2, hplace, Position.advanceAll_behind]

/-- A newline and a margin of spaces behind it are layout. -/
theorem isLayout_of_mem_margin {margin : Nat} :
    ∀ c ∈ '\n' :: List.replicate margin ' ', Scan.isLayout c := by
  intro c hc
  rcases List.mem_cons.1 hc with rfl | hc
  · decide
  · rw [List.eq_of_mem_replicate hc]
    decide

/-- A silent step passes layout. -/
theorem SilentStep.exists_layout (h : l.SilentStep next) :
    ∃ gap, (∀ c ∈ gap, Scan.isLayout c) ∧ l.Passes next gap := by
  cases h with
  | @separator c cs hat hrest hc =>
    exact ⟨[c], by simp [Scan.isLayout, hc], hrest, rfl⟩
  | blank hat hrest => exact ⟨_, isLayout_of_mem_margin, hrest, rfl⟩
  | enters hat hlands => exact ⟨_, isLayout_of_mem_margin, hlands.1, rfl⟩

/-- A step that reports a mark passes layout, and any other passes the word that it reports. -/
theorem TokenStep.exists_layout_or_word (h : l.TokenStep t next) :
    (t.isWritten = false ∧ ∃ gap, (∀ c ∈ gap, Scan.isLayout c) ∧ l.Passes next gap) ∨
    (t.isWritten = true ∧ ∃ word, t.lexeme.Spells word ∧ t.lexeme.Halts next.rest ∧ word ≠ [] ∧
      l.Passes next word) := by
  cases h with
  | opens | closes | endsLast | closesLast => exact Or.inl ⟨rfl, [], by simp, rfl, rfl⟩
  | ends hat hlands => exact Or.inl ⟨rfl, _, isLayout_of_mem_margin, hlands.1, rfl⟩
  | @scans c cs x hat hrest hc hx =>
    obtain ⟨hspells, hhalts⟩ := Scan.spells_and_halts_of_ok hx
    obtain ⟨more, hmore⟩ := Scan.exists_taken c cs
    exact Or.inr ⟨Scan.isWritten_of_ok hx, _, hspells, hhalts, by simp [hmore],
      hrest.trans (Scan.taken_append_rest c cs).symm, rfl⟩

/-! ## Whole runs -/

/-- Behind `front` and a `gap` of layout, the tokens `ts` of a run that comes to its end tile the gap and the
text that was left.  By induction along the run: a word closes the gap, everything else makes it wider. -/
theorem tiles_of_reads (h : Reads l ts last) (hend : last.step = .finished) {front gap : List Char}
    (hgap : ∀ c ∈ gap, Scan.isLayout c) (hplace : l.position = Position.behind (front ++ gap)) :
    Tiles front (gap ++ l.rest) (ts.filter Token.isWritten) := by
  induction h generalizing front gap with
  | here =>
    rw [(rest_and_depth_of_finished hend).1, List.append_nil]
    exact .layout hgap
  | @token l next last t ts hstep _ ih =>
    have ht := tokenStep_of_step hstep
    rcases ht.exists_layout_or_word with ⟨hmark, more, hmore, hpasses⟩ |
      ⟨hwritten, word, hspells, hhalts, -, hpasses⟩
    · -- The layout behind a mark makes the gap wider.
      have hwider : ∀ c ∈ gap ++ more, Scan.isLayout c := by
        simpa [or_imp, forall_and] using And.intro hgap hmore
      rw [List.filter_cons, if_neg (by simp [hmark]), hpasses.1, ← List.append_assoc]
      exact ih hend hwider (by rw [hpasses.position_eq hplace, List.append_assoc])
    · have hnext : next.position = Position.behind (front ++ gap ++ word ++ []) := by
        rw [hpasses.position_eq hplace, List.append_nil]
      rw [List.filter_cons, if_pos hwritten, hpasses.1, ← List.append_assoc]
      -- Behind a word the next gap starts empty.
      exact .word hgap (ht.position_eq.trans hplace) hspells hhalts (ih hend (by simp) hnext)
  | @silent l next last ts hstep _ ih =>
    obtain ⟨more, hmore, hpasses⟩ := (silentStep_of_step hstep).exists_layout
    have hwider : ∀ c ∈ gap ++ more, Scan.isLayout c := by
      simpa [or_imp, forall_and] using And.intro hgap hmore
    rw [hpasses.1, ← List.append_assoc]
    exact ih hend hwider (by rw [hpasses.position_eq hplace, List.append_assoc])

/-- Places along a run from `l` to `last`: no token stands before `l`; no token stands before an earlier one;
and of the tokens that are written each stands strictly behind the one before. -/
theorem isLE_of_reads (h : Reads l ts last) :
    (∀ t ∈ ts, (compare l.position t.position).isLE) ∧
      ts.Pairwise (fun t u => (compare t.position u.position).isLE) ∧
      (ts.filter Token.isWritten).Pairwise fun t u => compare t.position u.position = .lt := by
  induction h with
  | here => exact ⟨by simp, .nil, .nil⟩
  | @token l next last t ts hstep _ ih =>
    obtain ⟨hafter, hpairs, hstrict⟩ := ih
    have ht := tokenStep_of_step hstep
    have hplace := ht.position_eq
    have hself : (compare l.position l.position).isLE := Position.isLE_compare_advanceAll _ []
    -- A mark may share its place with the next token; a word has characters, so what follows it stands
    -- further on.
    rcases ht.exists_layout_or_word with ⟨hmark, gap, -, -, hnext⟩ |
      ⟨hwritten, word, -, -, hne, -, hnext⟩
    · have hle : ∀ u ∈ ts, (compare l.position u.position).isLE := fun u hu =>
        Position.isLE_compare_trans (hnext ▸ Position.isLE_compare_advanceAll _ _) (hafter u hu)
      refine ⟨by simpa [hplace, hself] using hle, .cons (hplace ▸ hle) hpairs, ?_⟩
      rwa [List.filter_cons, if_neg (by simp [hmark])]
    · have hlt : ∀ u ∈ ts, compare l.position u.position = .lt := by
        intro u hu
        have hword := Position.compare_advanceAll l.position hne
        rw [← hnext] at hword
        exact Position.compare_lt_of_lt_of_isLE hword (hafter u hu)
      have hle : ∀ u ∈ ts, (compare l.position u.position).isLE := fun u hu => by
        rw [hlt u hu]
        rfl
      refine ⟨by simpa [hplace, hself] using hle, .cons (hplace ▸ hle) hpairs, ?_⟩
      rw [List.filter_cons, if_pos hwritten]
      exact .cons (fun u hu => hplace ▸ hlt u (List.mem_filter.1 hu).1) hstrict
  | silent hstep _ ih =>
    obtain ⟨hafter, hpairs⟩ := ih
    obtain ⟨gap, -, -, hnext⟩ := (silentStep_of_step hstep).exists_layout
    refine ⟨fun t ht => ?_, hpairs⟩
    exact Position.isLE_compare_trans (hnext ▸ Position.isLE_compare_advanceAll _ _) (hafter t ht)

end Lexer

/-- The text of a source that has tokens `ts` is tiled by the words of all tokens but the structural marks:
concatenated with the layout between them they are the text without a remainder.  The places of these tokens
are strictly in order, and the place of no token at all, marks included, is before that of one in front of it.
-/
theorem tokenize_tiles {source : String} {ts : List Token} (h : tokenize source = .ok ts) :
    Tiles [] (SourceText.visible source.toList) (ts.filter Token.isWritten) ∧
      (ts.filter Token.isWritten).Pairwise (fun t u => compare t.position u.position = .lt) ∧
      ts.Pairwise fun t u => (compare t.position u.position).isLE := by
  obtain ⟨last, hreads, hend⟩ := Lexer.tokenize_eq_ok_iff.1 h
  obtain ⟨-, hle, hlt⟩ := Lexer.isLE_of_reads hreads
  exact ⟨@Lexer.tiles_of_reads _ _ _ hreads hend [] [] (by simp) rfl, hlt, hle⟩

/-- A byte-order mark and carriage returns, a string over two lines, and a number with a leading zero. -/
theorem tokenize_tiles_twoLines :
    ∃ ts, tokenize "\ufeffa,'x\r\ny' # é \r\n  -07.\n" = .ok ts ∧
      ts.filter Token.isWritten = [⟨.symbol "a", ⟨1, 1⟩⟩, ⟨.string "x\ny", ⟨1, 3⟩⟩,
        ⟨.comment "é", ⟨2, 4⟩⟩, ⟨.number (-7), ⟨3, 3⟩⟩, ⟨.operator '.', ⟨3, 6⟩⟩] ∧
      Tiles [] "a,'x\ny' # é \n  -07.\n".toList (ts.filter Token.isWritten) ∧
      ts.map (·.position) = [⟨1, 1⟩, ⟨1, 3⟩, ⟨2, 4⟩, ⟨3, 3⟩, ⟨3, 3⟩, ⟨3, 6⟩, ⟨3, 7⟩, ⟨4, 1⟩] ∧
      ts.Pairwise fun t u => (compare t.position u.position).isLE := by
  have h : tokenize "\ufeffa,'x\r\ny' # é \r\n  -07.\n" =
      .ok (lex "\ufeffa,'x\r\ny' # é \r\n  -07.\n").tokens := by
    decide +kernel
  have htext : SourceText.visible "\ufeffa,'x\r\ny' # é \r\n  -07.\n".toList =
      "a,'x\ny' # é \n  -07.\n".toList := by
    decide +kernel
  obtain ⟨htiles, -, hle⟩ := tokenize_tiles h
  rw [htext] at htiles
  exact ⟨_, h, by decide +kernel, htiles, by decide +kernel, hle⟩

end EntitySchema
