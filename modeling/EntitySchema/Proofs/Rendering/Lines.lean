import EntitySchema.Proofs.Canonical.Stable
/-!
  Texts that are written line by line.

  A `Line` has a level and words, and a text of lines gives each its margin of two spaces a level.  Between
  the words of a line stand separators, as a `Spacing` says: any number of them, and at least one between
  words that would run together.

      text sp lines  =  for each line: 2 * depth spaces, its words with the gaps of `sp` between them, a newline

  A lexer reads such a text back.  What lines say behind a line at `depth` is `said depth lines`: between two
  lines the marks that the change of level calls for (`Piece.marks`), and the words of each line in order.

  1. **One line.**  `InLine l depth rest` says that `l` stands before `rest` on an open line at `depth`.  Gaps
     are passed over (`reads_gap`), and words are read because what follows does not go on with them
     (`apart_behind`, `reads_words`).

  2. **All lines.**  At a newline the marks are reported and the next line is entered (`reads_lines`), by
     induction on the lines.  A text of lines is its own visible part, so this is what a source with it is
     read as (`tokenize_text`).

  3. **The canonical text.**  With one space between all words the text is the canonical text of its tokens,
     whatever the spacing of the text they were read from (`canonicalText_lines`).
-/

namespace EntitySchema

/-! ## Lines -/

/-- What stands between two words of a line. -/
structure Spacing where
  /-- What stands between the first word and the second. -/
  gap : Lexeme → Lexeme → List Char
  /-- Nothing but blanks, tabs and commas. -/
  separators : ∀ x y, ∀ c ∈ gap x y, Scan.isSeparator c
  /-- Words that go as far as their characters go need something between them. -/
  apart : ∀ x y, x.runsOn → y.runsOn → gap x y ≠ []

/-- One space everywhere. -/
def Spacing.single : Spacing where
  gap _ _ := [' ']
  separators := by simp [Scan.isSeparator]
  apart := by simp

/-- Brackets and dots stand close to their words, and commas between keys with values. -/
def Spacing.compact : Spacing where
  gap
    | .openMeta, _ | _, .closeMeta | .operator _, _ | _, .operator _ => []
    | .string _, .symbol _ => [',', ' ']
    | _, _ => [' ']
  separators x y := by split <;> simp [Scan.isSeparator]
  apart x y hx hy := by cases x <;> cases hx <;> cases y <;> cases hy <;> simp

/-- The words of a line behind its word `x`, each with the gap before it. -/
def Spacing.behind (sp : Spacing) (x : Lexeme) : List Lexeme → List Char
  | [] => []
  | y :: ys => sp.gap x y ++ y.chars ++ sp.behind y ys

/-- A line of words at a level. -/
structure Line where
  /-- How many levels the line is indented. -/
  depth : Nat
  /-- The first word, which every line has. -/
  first : Lexeme
  /-- The other words. -/
  more : List Lexeme

namespace Line

/-- The words of the line. -/
def words (line : Line) : List Lexeme := line.first :: line.more

/-- The line as it is written, without its margin and its end. -/
def chars (sp : Spacing) (line : Line) : List Char := line.first.chars ++ sp.behind line.first line.more

/-- A text of lines. -/
def text (sp : Spacing) (lines : List Line) : List Char :=
  lines.flatMap fun line => List.replicate (2 * line.depth) ' ' ++ line.chars sp ++ ['\n']

/-- The words of the line are content and can be written. -/
def Legible (line : Line) : Prop := ∀ x ∈ line.words, x.isContent ∧ x.Legible

/-- No line is more than one level deeper than the line before it. -/
def Climbs (depth : Nat) : List Line → Prop
  | [] => True
  | line :: lines => line.depth ≤ depth + 1 ∧ Climbs line.depth lines

/-- What a page is made of behind a line at `depth`. -/
def piecesBehind (depth : Nat) : List Line → List Piece
  | [] => Piece.marks depth 0 false
  | line :: lines => Piece.marks depth line.depth false ++ line.words.map .word ++ piecesBehind line.depth lines

/-- What a page of lines is made of. -/
def pieces : List Line → List Piece
  | [] => []
  | line :: lines => line.words.map .word ++ piecesBehind line.depth lines

/-- What lines say behind a line at `depth`. -/
def said (depth : Nat) (lines : List Line) : List Lexeme := (piecesBehind depth lines).map Piece.lexeme

/-- What a text of lines says. -/
def lexemes (lines : List Line) : List Lexeme := (pieces lines).map Piece.lexeme

/-- What lines say is said line by line. -/
theorem said_cons (depth : Nat) (line : Line) (lines : List Line) : said depth (line :: lines) =
    (Piece.marks depth line.depth false).map Piece.lexeme ++ line.words ++ said line.depth lines := by
  simp [said, piecesBehind, Function.comp_def, Piece.lexeme]

/-- In front of the first line nothing is said. -/
theorem lexemes_cons (line : Line) (lines : List Line) :
    lexemes (line :: lines) = line.words ++ said line.depth lines := by
  simp [lexemes, pieces, said, Function.comp_def, Piece.lexeme]

end Line

namespace Lexer

variable {sp : Spacing} {l : Lexer} {depth : Nat} {x : Lexeme} {ys : List Lexeme} {rest : List Char}

/-! ## Reading one line -/

/-- The lexer stands before `rest` on a line at `depth` that is open. -/
structure InLine (l : Lexer) (depth : Nat) (rest : List Char) : Prop where
  /-- What is still to be read. -/
  rest_eq : l.rest = rest
  /-- The scopes that are open are those around the line. -/
  depth_eq : l.depth = depth
  /-- No mark is to be reported. -/
  target_eq : l.target = depth
  /-- The line has not ended. -/
  open_line : l.ended = false

/-- On a line a lexer is at rest. -/
theorem InLine.at_rest (h : l.InLine depth rest) : l.depth = l.target :=
  h.depth_eq.trans h.target_eq.symm

/-- Separators are passed over. -/
theorem reads_gap {gap : List Char} (hgap : ∀ c ∈ gap, Scan.isSeparator c)
    (h : l.InLine depth (gap ++ rest)) : ∃ l', Reads l [] l' ∧ l'.InLine depth rest := by
  induction gap generalizing l with
  | nil => exact ⟨l, .here l, h⟩
  | cons c gap ih =>
    have hc := hgap c List.mem_cons_self
    have hline : c ≠ '\n' := by rintro rfl; exact absurd hc (by decide)
    have hstep : l.step = .silent (l.past [c] (gap ++ rest)) := by
      rw [step_of_rest h.at_rest h.rest_eq, if_neg hline, if_pos hc]
      rfl
    obtain ⟨l', hreads, hl'⟩ := ih (fun d hd => hgap d (List.mem_cons_of_mem c hd))
      (l := l.past [c] (gap ++ rest)) ⟨rfl, h.depth_eq, h.target_eq, h.open_line⟩
    exact ⟨l', .silent hstep hreads, hl'⟩

/-- What stands behind a word does not go on with it. -/
theorem apart_behind (sp : Spacing) (hys : ∀ y ∈ ys, y.isContent ∧ y.Legible) :
    Scan.Apart x (sp.behind x ys ++ '\n' :: rest) := by
  intro hx c hc
  cases ys with
  | nil =>
    obtain rfl : '\n' = c := by simpa [Spacing.behind] using hc
    rfl
  | cons y ys =>
    rw [Spacing.behind, List.append_assoc, List.append_assoc] at hc
    cases hgap : sp.gap x y with
    | cons d gap =>
      rw [hgap] at hc
      obtain rfl : d = c := by simpa using hc
      have hsep := sp.separators x y d (by simp [hgap])
      simp only [Scan.isSeparator, Bool.or_eq_true, decide_eq_true_eq] at hsep
      rcases hsep with (rfl | rfl) | rfl <;> rfl
    | nil =>
      -- Without a gap the next word has to start with a mark of its own.
      rw [hgap] at hc
      have hplain : y.runsOn = false := by
        rw [← Bool.not_eq_true]
        exact fun hy => sp.apart x y hx hy hgap
      obtain ⟨hcontent, hlegible⟩ := hys y List.mem_cons_self
      cases y with
      | symbol | number => cases hplain
      | comment | openScope | closeScope | endLine => cases hcontent
      | openMeta | closeMeta =>
        obtain rfl := Option.some.inj hc
        rfl
      | operator mark =>
        cases hlegible
        obtain rfl := Option.some.inj hc
        rfl
      | string text =>
        simp only [Lexeme.chars, Lexeme.word?, Lexeme.quoted, Option.getD_some] at hc
        split at hc
        · obtain rfl : Text.doubleQuote = c := by simpa using hc
          rfl
        · obtain rfl : Text.singleQuote = c := by simpa using hc
          rfl

/-- A lexer in front of a line reads its words. -/
theorem reads_words (hrest : l.rest = x.chars ++ (sp.behind x ys ++ '\n' :: rest))
    (hdepth : l.depth = depth) (htarget : l.target = depth) (hwords : ∀ y ∈ x :: ys, y.isContent ∧ y.Legible) :
    ∃ ts l', Reads l ts l' ∧ ts.map (·.lexeme) = x :: ys ∧ l'.InLine depth ('\n' :: rest) := by
  induction ys generalizing l x with
  | nil =>
    obtain ⟨hx, hlegible⟩ := hwords x List.mem_cons_self
    have hstep := step_word (hdepth.trans htarget.symm) hx hlegible hrest
      (apart_behind sp (by simp))
    exact ⟨_, _, .one hstep, rfl, rfl, hdepth, htarget, rfl⟩
  | cons y ys ih =>
    obtain ⟨hx, hlegible⟩ := hwords x List.mem_cons_self
    have hmore : ∀ z ∈ y :: ys, z.isContent ∧ z.Legible :=
      fun z hz => hwords z (List.mem_cons_of_mem x hz)
    have hstep := step_word (hdepth.trans htarget.symm) hx hlegible hrest (apart_behind sp hmore)
    have hline : InLine { l.past x.chars (sp.behind x (y :: ys) ++ '\n' :: rest) with ended := false }
        depth (sp.gap x y ++ (y.chars ++ (sp.behind y ys ++ '\n' :: rest))) :=
      ⟨by simp [past, Spacing.behind], hdepth, htarget, rfl⟩
    obtain ⟨mid, hgap, hmid⟩ := reads_gap (sp.separators x y) hline
    obtain ⟨ts, l', hreads, hlexemes, hl'⟩ := ih hmid.rest_eq hmid.depth_eq hmid.target_eq hmore
    exact ⟨_, l', .token hstep (hgap.append hreads), by simp [hlexemes], hl'⟩

/-! ## Reading all lines -/

/-- Marks are the lexemes of their pieces. -/
theorem map_lexeme_of_marks {ps : List Piece} {ts : List Token} (h : Marks ps ts) :
    ts.map (·.lexeme) = ps.map Piece.lexeme := by
  rw [← h.1, List.map_map]
  simp [Function.comp_def]

/-- A lexer at the end of a line reads the lines behind it. -/
theorem reads_lines {lines : List Line} (hlegible : ∀ line ∈ lines, line.Legible)
    (hclimbs : Line.Climbs depth lines) (h : l.InLine depth ('\n' :: Line.text sp lines)) :
    ∃ ts last, Reads l ts last ∧ last.step = .finished ∧
      ts.map (·.lexeme) = Line.said depth lines := by
  -- By induction on the lines, of any lexer at the end of an open line.
  induction lines generalizing l depth with
  | nil =>
    obtain ⟨ts, ended, hreads, hmarks⟩ :=
      reads_enterLine (step_lastNewline h.at_rest h.rest_eq) rfl rfl (Nat.zero_le _)
    rw [h.depth_eq, h.open_line] at hmarks
    exact ⟨ts, _, hreads, step_finished rfl rfl rfl, map_lexeme_of_marks hmarks⟩
  | cons line lines ih =>
    obtain ⟨hlevel, hclimbs⟩ := hclimbs
    have hwords := hlegible line List.mem_cons_self
    obtain ⟨hx, hfirst⟩ := hwords line.first List.mem_cons_self
    obtain ⟨c, cs, hchars, hc, -⟩ := @Scan.ofChars_chars _ [] hx hfirst (by simp [Scan.Apart])
    have hrest : l.rest = Spot.lineStart line.depth ++
        c :: (cs ++ (sp.behind line.first line.more ++ '\n' :: Line.text sp lines)) := by
      rw [h.rest_eq, Line.text, List.flatMap_cons, Line.chars, hchars]
      simp [Spot.lineStart, Line.text]
    -- First the marks between the two lines, then the words of the second.
    obtain ⟨ts, ended, hreads, hmarks⟩ := reads_enterLine
      (step_lineStart h.at_rest hrest hc (by rw [h.depth_eq]; exact hlevel)) rfl rfl
      (by rw [h.depth_eq]; exact hlevel)
    rw [h.depth_eq, h.open_line] at hmarks
    have hentered : ({ l.past (Spot.lineStart line.depth) (c :: (cs ++ (sp.behind line.first line.more ++
        '\n' :: Line.text sp lines))) with depth := line.depth, target := line.depth, ended } : Lexer).rest =
        line.first.chars ++ (sp.behind line.first line.more ++ '\n' :: Line.text sp lines) := by
      simp [past, hchars]
    obtain ⟨us, mid, hline, hus, hmid⟩ := reads_words hentered rfl rfl hwords
    obtain ⟨vs, last, hmore, hend, hvs⟩ :=
      ih (fun other ho => hlegible other (List.mem_cons_of_mem line ho)) hclimbs hmid
    refine ⟨ts ++ (us ++ vs), last, hreads.append (hline.append hmore), hend, ?_⟩
    rw [List.map_append, List.map_append, map_lexeme_of_marks hmarks, hus, hvs, Line.said_cons,
      List.append_assoc]
    rfl

end Lexer

namespace Line

variable {sp : Spacing} {lines : List Line}

/-- No carriage return stands between or in the words of a line. -/
theorem return_not_mem_behind (sp : Spacing) {x : Lexeme} {ys : List Lexeme}
    (h : ∀ y ∈ ys, y.isContent ∧ y.Legible) : '\r' ∉ sp.behind x ys := by
  induction ys generalizing x with
  | nil => simp [Spacing.behind]
  | cons y ys ih =>
    obtain ⟨hy, hlegible⟩ := h y List.mem_cons_self
    have hgap : '\r' ∉ sp.gap x y := fun hm => absurd (sp.separators x y _ hm) (by decide)
    have hmore := ih (x := y) fun z hz => h z (List.mem_cons_of_mem y hz)
    simp [Spacing.behind, hgap, hmore, Scan.return_not_mem_chars hy hlegible]

/-- Nor in a text of lines. -/
theorem return_not_mem_text (sp : Spacing) (h : ∀ line ∈ lines, line.Legible) :
    '\r' ∉ text sp lines := by
  intro hm
  obtain ⟨line, hline, hm⟩ := List.mem_flatMap.1 hm
  have hwords := h line hline
  obtain ⟨hx, hfirst⟩ := hwords line.first List.mem_cons_self
  have hbehind := return_not_mem_behind sp (x := line.first)
    fun y hy => hwords y (List.mem_cons_of_mem line.first hy)
  simp [chars, hbehind, Scan.return_not_mem_chars hx hfirst] at hm

/-- The text is its own visible part, since it starts with a word. -/
theorem visible_text (sp : Spacing) (hlegible : ∀ line ∈ lines, line.Legible)
    (hfirst : ∀ line ∈ lines.head?, line.depth = 0) :
    SourceText.visible (text sp lines) = text sp lines := by
  have hmark : ∀ c ∈ (text sp lines).head?, c ≠ SourceText.byteOrderMark := by
    cases lines with
    | nil => simp [text]
    | cons line lines =>
      obtain ⟨hx, hword⟩ := hlegible line List.mem_cons_self line.first List.mem_cons_self
      obtain ⟨c, cs, hchars, hc⟩ := SourceText.exists_chars_eq_cons hx hword
      rw [text, List.flatMap_cons, hfirst line rfl, chars, hchars]
      simpa using hc
  rw [SourceText.visible, SourceText.dropMark_eq_self hmark,
    SourceText.withoutReturns_eq_self (return_not_mem_text sp hlegible)]

/-- A text of lines is read as its words and the marks between its lines. -/
theorem tokenize_text (sp : Spacing) (hlegible : ∀ line ∈ lines, line.Legible)
    (hclimbs : Climbs 0 lines) (hfirst : ∀ line ∈ lines.head?, line.depth = 0) :
    ∃ ts, tokenize (String.ofList (text sp lines)) = .ok ts ∧ ts.map (·.lexeme) = lexemes lines := by
  have hrest : (Lexer.ofSource (String.ofList (text sp lines))).rest = text sp lines := by
    simp [Lexer.ofSource, Lexer.ofText, visible_text sp hlegible hfirst]
  cases lines with
  | nil =>
    refine ⟨[], Lexer.tokenize_eq_ok_iff.2 ⟨_, .here _, Lexer.step_finished rfl rfl hrest⟩, rfl⟩
  | cons line lines =>
    -- No mark comes before the first line, which is not indented.
    have hzero := hfirst line rfl
    obtain ⟨-, hclimbs⟩ := hclimbs
    have hstart : (Lexer.ofSource (String.ofList (text sp (line :: lines)))).rest =
        line.first.chars ++ (sp.behind line.first line.more ++ '\n' :: text sp lines) := by
      rw [hrest]
      simp [text, hzero, chars]
    obtain ⟨ts, mid, hline, hts, hmid⟩ :=
      Lexer.reads_words hstart rfl rfl (hlegible line List.mem_cons_self)
    rw [hzero] at hclimbs
    obtain ⟨us, last, hmore, hend, hus⟩ := Lexer.reads_lines
      (fun other ho => hlegible other (List.mem_cons_of_mem line ho)) hclimbs hmid
    refine ⟨ts ++ us, Lexer.tokenize_eq_ok_iff.2 ⟨last, hline.append hmore, hend⟩, ?_⟩
    rw [List.map_append, hts, hus, lexemes_cons, hzero]
    rfl

/-! ## The canonical text -/

/-- On a line the page goes on with the words that follow, with single spaces. -/
theorem tail_words (depth : Nat) (x : Lexeme) (ys : List Lexeme) (ps : List Piece) :
    (Spot.inLine depth).tail (ys.map .word ++ ps) =
      Spacing.single.behind x ys ++ (Spot.inLine depth).tail ps := by
  induction ys generalizing x with
  | nil => rfl
  | cons y ys ih =>
    rw [List.map_cons, List.cons_append, Spot.tail, Spot.after_word, Spot.indent, ih y]
    simp [Spacing.behind, Spacing.single]

/-- Behind a line the page goes on with the lines that follow. -/
theorem tail_piecesBehind {depth : Nat} (hclimbs : Climbs depth lines) :
    (Spot.inLine depth).tail (piecesBehind depth lines) = '\n' :: text .single lines := by
  induction lines generalizing depth with
  | nil =>
    have hend := (Spot.tail_marks (Nat.zero_le (depth + 1)) []).1
    rw [List.append_nil] at hend
    exact hend
  | cons line lines ih =>
    obtain ⟨hlevel, hclimbs⟩ := hclimbs
    rw [piecesBehind, List.append_assoc, (Spot.tail_marks hlevel _).1, words, List.map_cons, List.cons_append,
      Spot.tail, Spot.after_word, Spot.indent, tail_words _ line.first, ih hclimbs]
    simp [Spot.lineStart, text, chars]

/-- There are three marks. -/
theorem of_mem_marks {p : Piece} {depth level : Nat} {idle : Bool} (h : p ∈ Piece.marks depth level idle) :
    p = .opens ∨ p = .ends ∨ p = .closes := by
  unfold Piece.marks at h
  split at h
  · exact Or.inl (List.mem_singleton.1 h)
  · rcases List.mem_append.1 h with h | h
    · split at h
      · cases h
      · exact Or.inr (Or.inl (List.mem_singleton.1 h))
    · exact Or.inr (Or.inr (List.eq_of_mem_replicate h))

/-- What lines say is legible and has no comments in it, and its pieces are those of the lines. -/
theorem of_mem_pieces (hlegible : ∀ line ∈ lines, line.Legible) {p : Piece} (h : p ∈ pieces lines) :
    Piece.ofLexeme true p.lexeme = p ∧ p.lexeme.Legible ∧ ¬ p.lexeme.isComment := by
  have of_marks : ∀ depth level, p ∈ Piece.marks depth level false →
      Piece.ofLexeme true p.lexeme = p ∧ p.lexeme.Legible ∧ ¬ p.lexeme.isComment := by
    intro depth level hp
    rcases of_mem_marks hp with rfl | rfl | rfl <;>
      exact ⟨rfl, trivial, by simp [Piece.lexeme, Lexeme.isComment]⟩
  have of_words : ∀ line ∈ lines, p ∈ line.words.map Piece.word →
      Piece.ofLexeme true p.lexeme = p ∧ p.lexeme.Legible ∧ ¬ p.lexeme.isComment := by
    intro line hline hp
    obtain ⟨x, hx, rfl⟩ := List.mem_map.1 hp
    obtain ⟨hcontent, hword⟩ := hlegible line hline x hx
    exact ⟨Piece.ofLexeme_of_isContent true hcontent, hword,
      by simp [Piece.lexeme, Lexeme.isComment_eq_false hcontent]⟩
  -- The lines behind the first are read at the level of the one before them.
  have of_behind : ∀ (rows : List Line) (depth : Nat), (∀ row ∈ rows, row ∈ lines) →
      p ∈ piecesBehind depth rows →
      Piece.ofLexeme true p.lexeme = p ∧ p.lexeme.Legible ∧ ¬ p.lexeme.isComment := by
    intro rows
    induction rows with
    | nil => exact fun depth _ hp => of_marks depth 0 hp
    | cons row rows ih =>
      intro depth hrows hp
      rw [piecesBehind, List.mem_append, List.mem_append] at hp
      rcases hp with (hp | hp) | hp
      · exact of_marks depth row.depth hp
      · exact of_words row (hrows row List.mem_cons_self) hp
      · exact ih row.depth (fun other ho => hrows other (List.mem_cons_of_mem row ho)) hp
  cases lines with
  | nil => cases h
  | cons line lines =>
    rcases List.mem_append.1 h with h | h
    · exact of_words line List.mem_cons_self h
    · exact of_behind lines line.depth (fun row hrow => List.mem_cons_of_mem line hrow) h

/-- Tokens that say what lines say are legible, and none is a comment. -/
theorem legible_of_lexemes {ts : List Token} (hts : ts.map (·.lexeme) = lexemes lines)
    (hlegible : ∀ line ∈ lines, line.Legible) : ∀ t ∈ ts, t.lexeme.Legible ∧ ¬ t.isComment := by
  intro t ht
  have hmem := List.mem_map_of_mem (f := Token.lexeme) ht
  rw [hts] at hmem
  obtain ⟨p, hp, heq⟩ := List.mem_map.1 hmem
  rw [Token.isComment, ← heq]
  exact (of_mem_pieces hlegible hp).2

/-- So no token is left out with the comments. -/
theorem withoutComments_of_lexemes {ts : List Token} (hts : ts.map (·.lexeme) = lexemes lines)
    (hlegible : ∀ line ∈ lines, line.Legible) : Token.withoutComments ts = ts :=
  List.filter_eq_self.2 fun t ht => by simpa using (legible_of_lexemes hts hlegible t ht).2

/-- Tokens that say what lines say have the lines, with single spaces, for their canonical text. -/
theorem canonicalText_lines {ts : List Token} (hts : ts.map (·.lexeme) = lexemes lines)
    (hlegible : ∀ line ∈ lines, line.Legible) (hclimbs : Climbs 0 lines)
    (hfirst : ∀ line ∈ lines.head?, line.depth = 0) :
    canonicalText Flags.discardComments ts = String.ofList (text .single lines) := by
  have hplain := legible_of_lexemes hts hlegible
  -- Without comments no line is a remark of its own, so pieces are read off the lexemes.
  have hpieces : EntitySchema.pieces ts = pieces lines := by
    rw [EntitySchema.pieces, piecesFrom_eq_map fun t ht => (hplain t ht).2, hts, lexemes, List.map_map]
    exact (List.map_congr_left fun p hp => (of_mem_pieces hlegible hp).1).trans (List.map_id _)
  rw [canonicalText_discardComments, withoutComments_of_lexemes hts hlegible, ← String.toList_inj,
    String.toList_ofList, canonicalText_eq_tail fun t ht => (hplain t ht).1, hpieces]
  cases lines with
  | nil => rfl
  | cons line lines =>
    have hzero := hfirst line rfl
    obtain ⟨-, hclimbs⟩ := hclimbs
    rw [hzero] at hclimbs
    rw [pieces, hzero, words, List.map_cons, List.cons_append, Spot.tail, Spot.after_word, Spot.indent,
      tail_words _ line.first, tail_piecesBehind hclimbs]
    simp [text, chars, hzero]

end Line

end EntitySchema
