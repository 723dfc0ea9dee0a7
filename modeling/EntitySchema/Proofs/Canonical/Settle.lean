import EntitySchema.Proofs.Lexer.Lines
/-!
  What a canonical text is read back as.

  A page does not show every piece.  A mark only moves the next fresh line, so all that is left of the marks
  between two words is the difference of the levels of their lines.  `s.settle ps` puts in their place the
  marks that a lexer reports for that difference, behind the remarks that stand between the words: at a spot
  `fresh depth indent idle` the marks that are due in front of a word are `Piece.marks depth indent idle`, and
  a remark is put in front of them.

  Three conditions on pieces carry the reading.
  * `Orderly` holds of whatever a lexer reports: marks balance, a scope closes on a fresh line only, a remark
    does not stand behind a word of several lines.
  * `Stepwise` says that no line is more than one level deeper than the line before it.
  * Words and remarks are legible.

  A lexer in front of the rest of a page is described by `l.Before line s ps`: it is at rest where the spot
  says, `s.tail ps` is in front of it, and `line` is the line of its last token.  From there each piece is
  read by a lemma of its own (`reads_word`, `reads_remark`, `before_mark`, `reads_finish`), which leads to the
  same situation in front of the pieces behind it; the whole page follows by induction on the pieces.

  Main statement: `exists_reads_tail`, from the tail of such pieces a lexer reports the pieces that `settle`
  makes of them, and from it `tokenize_canonicalText`.
-/

namespace EntitySchema

namespace Piece

/-- A word that is spelled over several lines. -/
def Multiline : Piece → Prop
  | word x => '\n' ∈ x.chars
  | _ => False

/-- The first piece is a remark on the line of the piece before. -/
def Trails (ps : List Piece) : Prop := ∃ text rest, ps = remark text false :: rest

/-- Only content can be spelled over several lines. -/
theorem content_of_multiline {own : Bool} {x : Lexeme} (h : (ofLexeme own x).Multiline) :
    x.isContent ∧ '\n' ∈ x.chars := by
  cases x with
  | comment | openScope | closeScope | endLine => exact h.elim
  | symbol | number | string | operator | openMeta | closeMeta => exact ⟨rfl, h⟩

/-- How a remark stands is known from its piece. -/
theorem own_of_ofLexeme {own own' : Bool} {x : Lexeme} {text : String}
    (h : ofLexeme own x = remark text own') : own = own' := by
  cases x <;> cases h
  rfl

end Piece

namespace Spot

/-- The marks that a lexer reports before a line at `level`. -/
@[simp] def due (level : Nat) : Spot → List Piece
  | top | inLine _ => []
  | remarked depth => Piece.marks depth level false
  | fresh depth _ idle => Piece.marks depth level idle

/-- A piece as a lexer reports it. -/
@[simp] def settled : Spot → Piece → List Piece
  | s, .word x => s.due s.indent ++ [.word x]
  | inLine _, .remark text own => [.remark text own]
  | _, .remark text _ => [.remark text true]
  | _, .opens | _, .closes | _, .ends => []

/-- Pieces as a lexer reports them. -/
def settle (s : Spot) : List Piece → List Piece
  | [] => s.due 0
  | p :: ps => s.settled p ++ (s.after p).settle ps

/-- The piece can come next from a lexer: no content where a line has to end, no end where no line is
open, and no scope that closes where none is open or a line has not ended. -/
def Allows : Spot → Piece → Prop
  | remarked _, .word _ => False
  | fresh _ indent _, .closes => 0 < indent
  | _, .closes => False
  | top, .ends | fresh _ _ _, .ends => False
  | _, _ => True

/-- The pieces can come from a lexer. -/
def Orderly (s : Spot) : List Piece → Prop
  | [] => s.indent = 0
  | p :: ps => s.Allows p ∧ (p.Multiline → ¬ Piece.Trails ps) ∧ (s.after p).Orderly ps

/-- No word stands more than one level deeper than the line before it. -/
def Stepwise (s : Spot) : List Piece → Prop
  | [] => True
  | p :: ps => (∀ depth indent idle x, s = fresh depth indent idle → p = .word x →
      indent ≤ depth + 1) ∧ (s.after p).Stepwise ps

end Spot

namespace Lexer

/-- The lexer is at rest where the spot says. -/
def At (l : Lexer) : Spot → Prop
  | .top => l.depth = 0 ∧ l.target = 0 ∧ l.ended = true
  | .inLine depth | .remarked depth => l.depth = depth ∧ l.target = depth ∧ l.ended = false
  | .fresh depth _ idle => l.depth = depth ∧ l.target = depth ∧ l.ended = idle

/-- A lexer at rest has nothing to open or to close. -/
theorem At.depth_eq {l : Lexer} {s : Spot} (h : l.At s) : l.depth = l.target := by
  cases s with
  | top => exact h.1.trans h.2.1.symm
  | inLine | remarked | fresh => exact h.1.trans h.2.1.symm

/-- A lexer that reported its last token on `line` stands before the tail of `ps` at `s`. -/
structure Before (l : Lexer) (line : Option Nat) (s : Spot) (ps : List Piece) : Prop where
  at_spot : l.At s
  rest_eq : l.rest = s.tail ps
  line_le : ∀ k ∈ line, k ≤ l.position.line
  line_none : s = .top → line = none
  line_some : ∀ depth, s = .inLine depth → Piece.Trails ps → line = some l.position.line

/-- Marks are pieces of their own wherever they stand: `ts` stands for the marks `qs`, and the tokens `us`
behind them make pieces as they would behind the last mark. -/
theorem exists_piecesFrom_marks {qs : List Piece} {ts : List Token} (h : Marks qs ts)
    (line : Option Nat) : ∃ line', ∀ us, piecesFrom line (ts ++ us) = qs ++ piecesFrom line' us := by
  obtain ⟨rfl, hcomment⟩ := h
  induction ts generalizing line with
  | nil => exact ⟨line, fun _ => rfl⟩
  | cons t ts ih =>
    obtain ⟨line', hline'⟩ := ih (some t.position.line)
      fun u hu => hcomment u (List.mem_cons_of_mem t hu)
    have hflag := Piece.ofLexeme_own (hcomment t List.mem_cons_self)
    exact ⟨line', fun us => by rw [List.cons_append, piecesFrom, hline', hflag]; rfl⟩

/-- A token of content is a word. -/
theorem piecesFrom_content {t : Token} (h : t.lexeme.isContent) (line : Option Nat) (us : List Token) :
    piecesFrom line (t :: us) = .word t.lexeme :: piecesFrom (some t.position.line) us := by
  rw [piecesFrom, Piece.ofLexeme_of_isContent _ h]

/-! ## Reading single pieces -/

/-- A lexer in front of a word reads it and is behind it. -/
theorem exists_step_word {l : Lexer} {n : Nat} {x : Lexeme} {ps : List Piece} (hdepth : l.depth = n)
    (htarget : l.target = n) (hx : x.isContent) (hlegible : x.Legible)
    (hrest : l.rest = x.chars ++ (Spot.inLine n).tail ps)
    (htrails : '\n' ∈ x.chars → ¬ Piece.Trails ps) :
    ∃ l', l.step = .token ⟨x, l.position⟩ l' ∧
      l'.Before (some l.position.line) (.inLine n) ps := by
  refine ⟨_, step_word (hdepth.trans htarget.symm) hx hlegible hrest
    ((Spot.boundary_tail_inLine n ps).apart x),
    ⟨hdepth, htarget, rfl⟩, rfl, ?_, by simp, ?_⟩
  · simpa [past] using Position.line_le_advanceAll l.position x.chars
  · intro depth _ ht
    have : (l.position.advanceAll x.chars).line = l.position.line :=
      Position.line_advanceAll_of_not_mem fun hm => htrails hm ht
    simp [past, this]

/-- A lexer in front of a word reads the marks that are due, then the word, and is behind it.  What is in
front of the word depends on the spot: nothing, a blank, or a newline and a margin. -/
theorem reads_word {l : Lexer} {line : Option Nat} {s : Spot} {x : Lexeme} {ps : List Piece}
    (h : l.Before line s (.word x :: ps)) (hx : x.isContent) (hlegible : x.Legible)
    (hlevel : ∀ depth indent idle, s = .fresh depth indent idle → indent ≤ depth + 1)
    (htrails : '\n' ∈ x.chars → ¬ Piece.Trails ps) :
    ∃ ts t l', Reads l (ts ++ [t]) l' ∧ Marks (s.due s.indent) ts ∧ t.lexeme = x ∧
      l'.Before (some t.position.line) (.inLine s.indent) ps := by
  have hat := h.at_spot
  have hrest := h.rest_eq
  rw [Spot.tail, Spot.after_word] at hrest
  -- A line of its own starts with the marks before it.
  have of_lineStart : ∀ n, l.rest = Spot.lineStart n ++ (x.chars ++ (Spot.inLine n).tail ps) →
      n ≤ l.depth + 1 → ∃ ts t l', Reads l (ts ++ [t]) l' ∧
        Marks (Piece.marks l.depth n l.ended) ts ∧ t.lexeme = x ∧
        l'.Before (some t.position.line) (.inLine n) ps := by
    intro n hn hle
    obtain ⟨c, cs, hchars, hc, -⟩ := @Scan.ofChars_chars _ [] hx hlegible
      (by simp [Scan.Apart])
    rw [hchars, List.cons_append] at hn
    obtain ⟨ts, ended, hreads, hmarks⟩ :=
      reads_enterLine (step_lineStart hat.depth_eq hn hc hle) rfl rfl hle
    obtain ⟨l', hstep, hbefore⟩ := exists_step_word (l := { l.past (Spot.lineStart n)
      (c :: (cs ++ (Spot.inLine n).tail ps)) with depth := n, target := n, ended })
      rfl rfl hx hlegible (by simp [past, hchars]) htrails
    exact ⟨ts, _, l', hreads.append (.one hstep), hmarks, rfl, hbefore⟩
  cases s with
  | top =>
    obtain ⟨l', hstep, hbefore⟩ := exists_step_word hat.1 hat.2.1 hx hlegible
      (by simpa using hrest) htrails
    exact ⟨[], _, l', .one hstep, ⟨rfl, by simp⟩, rfl, hbefore⟩
  | inLine depth =>
    have hspace := step_space hat.depth_eq hrest
    obtain ⟨l', hstep, hbefore⟩ := exists_step_word (l := l.past [' '] _) (n := depth) hat.1 hat.2.1
      hx hlegible rfl htrails
    exact ⟨[], _, l', .silent hspace (.one hstep), ⟨rfl, by simp⟩, rfl, hbefore⟩
  | remarked depth =>
    have hread := of_lineStart depth (by simpa using hrest) (by rw [hat.1]; omega)
    rwa [hat.1, hat.2.2] at hread
  | fresh depth indent idle =>
    have hread := of_lineStart indent (by simpa using hrest)
      (by rw [hat.1]; exact hlevel depth indent idle rfl)
    rwa [hat.1, hat.2.2] at hread

/-- A lexer in front of a remark reads it and is where it was, on the line of the remark. -/
theorem exists_step_remark {l : Lexer} {s : Spot} {text : String} {ps : List Piece} (own : Bool)
    (hat : l.At s) (hlegible : (Lexeme.comment text).Legible)
    (hrest : l.rest = Lexeme.remark text ++ (s.after (.remark text own)).tail ps) :
    ∃ l', l.step = .token ⟨.comment text, l.position⟩ l' ∧
      l'.Before (some l.position.line) (s.after (.remark text own)) ps := by
  -- Behind a remark the page is on a fresh line, so the remark ends where its line ends.
  have hfresh : (s.after (.remark text own)).isFresh := by cases s <;> rfl
  obtain ⟨cs, hcs⟩ := Spot.exists_tail_of_isFresh hfresh ps
  have hline : ∀ c ∈ ((s.after (.remark text own)).tail ps).head?, c = '\n' := by
    rw [hcs]
    simp
  refine ⟨_, step_remark hat.depth_eq hlegible hrest hline, ?_, rfl, ?_, ?_, ?_⟩
  · cases s <;> exact hat
  · simpa [past] using Position.line_le_advanceAll l.position (Lexeme.remark text)
  · intro htop
    rw [htop] at hfresh
    cases hfresh
  · intro depth hin
    rw [hin] at hfresh
    cases hfresh

/-- A remark is read as it is reported, and the layout stays as it is. -/
theorem reads_remark {l : Lexer} {line : Option Nat} {s : Spot} {text : String} {own : Bool}
    {ps : List Piece} (h : l.Before line s (.remark text own :: ps))
    (hlegible : (Lexeme.comment text).Legible) :
    ∃ t l', Reads l [t] l' ∧ piecesFrom line [t] = s.settled (.remark text own) ∧
      l'.Before (some t.position.line) (s.after (.remark text own)) ps := by
  have hat := h.at_spot
  have hrest := h.rest_eq
  -- On a line of its own the newline before it is passed over, so its token is further down.
  have of_lineStart : ∀ n, l.rest = Spot.lineStart n ++ (Lexeme.remark text ++
      (s.after (.remark text own)).tail ps) → ∃ t l', Reads l [t] l' ∧
        piecesFrom line [t] = [.remark text true] ∧
        l'.Before (some t.position.line) (s.after (.remark text own)) ps := by
    intro n hn
    obtain ⟨ds, hds, -⟩ := @Scan.ofChars_remark _ [] hlegible (by simp)
    obtain ⟨l', hstep, hb⟩ := exists_step_remark (l := l.past (Spot.lineStart n) (Lexeme.remark text ++
      (s.after (.remark text own)).tail ps)) own (by cases s <;> exact hat) hlegible rfl
    rw [hds, List.cons_append] at hn hstep
    refine ⟨_, l', .silent (step_remarkStart hat.depth_eq hn) (.one hstep), ?_, hb⟩
    have hlt : l.position.line < (l.position.advanceAll (Spot.lineStart n)).line :=
      Position.line_lt_advanceAll List.mem_cons_self
    have hall : line.all (· < (l.position.advanceAll (Spot.lineStart n)).line) = true := by
      cases line with
      | none => rfl
      | some k =>
        have := h.line_le k rfl
        simp only [Option.all_some, decide_eq_true_eq]
        omega
    rw [piecesFrom]
    exact congrArg (fun own => [Piece.remark text own]) hall
  cases s with
  | top =>
    obtain ⟨l', hstep, hb⟩ := exists_step_remark own hat hlegible (by simpa [Spot.tail] using hrest)
    refine ⟨_, l', .one hstep, ?_, hb⟩
    simp [piecesFrom, h.line_none rfl, Piece.ofLexeme]
  | inLine depth =>
    cases own with
    | true => exact of_lineStart depth (by simpa [Spot.tail] using hrest)
    | false =>
      have hspace := step_space hat.depth_eq hrest
      obtain ⟨l', hstep, hb⟩ := exists_step_remark (s := .inLine depth) (l := l.past [' '] _) false hat
        hlegible rfl
      refine ⟨_, l', .silent hspace (.one hstep), ?_, hb⟩
      have hk := h.line_some depth rfl ⟨text, ps, rfl⟩
      have hsame : (l.position.advanceAll [' ']).line = l.position.line :=
        Position.line_advanceAll_of_not_mem (by decide)
      have hall : line.all (· < (l.position.advanceAll [' ']).line) = false := by
        rw [hk, hsame]
        simp
      rw [piecesFrom]
      exact congrArg (fun own => [Piece.remark text own]) hall
  | remarked depth => exact of_lineStart depth (by simpa [Spot.tail] using hrest)
  | fresh depth indent idle => exact of_lineStart indent (by simpa [Spot.tail] using hrest)

/-- A mark moves the page and not the lexer. -/
theorem before_mark {l : Lexer} {line : Option Nat} {s : Spot} {p : Piece} {ps : List Piece}
    (h : l.Before line s (p :: ps)) (hp : p = .opens ∨ p = .closes ∨ p = .ends) (hallows : s.Allows p) :
    l.Before line (s.after p) ps := by
  obtain ⟨hat, hrest, hle, hnone, hsome⟩ := h
  have hrest : l.rest = (s.after p).tail ps := by
    rw [hrest, Spot.tail]
    rcases hp with rfl | rfl | rfl <;> simp only [Spot.written, List.nil_append]
  refine ⟨?_, hrest, hle, ?_, ?_⟩
  · rcases hp with rfl | rfl | rfl <;> cases s <;> first | exact hat | exact hallows.elim
  · rcases hp with rfl | rfl | rfl <;> cases s <;> simp_all
  · rcases hp with rfl | rfl | rfl <;> cases s <;> simp_all [Spot.Allows]

/-- At the end of a page everything that is open ends. -/
theorem reads_finish {l : Lexer} {line : Option Nat} {s : Spot} (h : l.Before line s [])
    (hindent : s.indent = 0) :
    ∃ ts last, Reads l ts last ∧ last.step = .finished ∧ Marks (s.due 0) ts := by
  have hat := h.at_spot
  have hrest := h.rest_eq
  -- A newline at the end of the page ends what is open.
  have of_newline : l.rest = ['\n'] → ∃ ts last, Reads l ts last ∧ last.step = .finished ∧
      Marks (Piece.marks l.depth 0 l.ended) ts := by
    intro hn
    obtain ⟨ts, ended, hreads, hmarks⟩ :=
      reads_enterLine (step_lastNewline hat.depth_eq hn) rfl rfl (Nat.zero_le _)
    exact ⟨ts, _, hreads, step_finished rfl rfl rfl, hmarks⟩
  cases s with
  | top => exact ⟨[], l, .here l, step_finished hat.1 hat.2.1 hrest, rfl, by simp⟩
  | inLine depth =>
    exact ⟨[], l, .here l, step_finished (hat.1.trans hindent) (hat.2.1.trans hindent) hrest, rfl,
      by simp⟩
  | remarked depth =>
    have hread := of_newline hrest
    rwa [hat.1, hat.2.2] at hread
  | fresh depth indent idle =>
    have hread := of_newline hrest
    rwa [hat.1, hat.2.2] at hread

/-! ## Reading all pieces -/

/-- From the tail of the pieces `ps` a lexer reads to the end, and the pieces of what it reports are the
settled ones.  By induction on `ps` with the spot, the lexer and the line of the last token generalized, since
all three move on with every piece. -/
theorem exists_reads_tail {ps : List Piece} {s : Spot} {l : Lexer} {line : Option Nat}
    (h : l.Before line s ps) (horderly : s.Orderly ps) (hstepwise : s.Stepwise ps)
    (hps : ∀ p ∈ ps, p.Proper ∧ p.lexeme.Legible) :
    ∃ ts last, Reads l ts last ∧ last.step = .finished ∧ piecesFrom line ts = s.settle ps := by
  induction ps generalizing s l line with
  | nil =>
    obtain ⟨ts, last, hreads, hend, hmarks⟩ := reads_finish h horderly
    obtain ⟨line', hpieces⟩ := exists_piecesFrom_marks hmarks line
    have hts := hpieces []
    rw [List.append_nil] at hts
    exact ⟨ts, last, hreads, hend, by simpa [piecesFrom, Spot.settle] using hts⟩
  | cons p ps ih =>
    obtain ⟨hallows, htrails, horderly⟩ := horderly
    obtain ⟨hlevel, hstepwise⟩ := hstepwise
    obtain ⟨hproper, hlegible⟩ := hps p List.mem_cons_self
    replace hps := fun q hq => hps q (List.mem_cons_of_mem p hq)
    -- Marks are not written, so the lexer stays where it is until the next piece.
    have of_mark : p = .opens ∨ p = .closes ∨ p = .ends → ∃ ts last, Reads l ts last ∧
        last.step = .finished ∧ piecesFrom line ts = s.settle (p :: ps) := by
      intro hp
      obtain ⟨ts, last, hreads, hend, hpieces⟩ := ih (before_mark h hp hallows) horderly hstepwise hps
      refine ⟨ts, last, hreads, hend, ?_⟩
      rw [hpieces, Spot.settle]
      rcases hp with rfl | rfl | rfl <;> cases s <;> rfl
    cases p with
    | word x =>
      obtain ⟨marks, t, next, hreads, hmarks, rfl, hnext⟩ := reads_word h hproper hlegible
        (fun depth indent idle hs => hlevel depth indent idle x hs rfl) htrails
      rw [Spot.after_word] at horderly hstepwise
      obtain ⟨ts, last, hmore, hend, hpieces⟩ := ih hnext horderly hstepwise hps
      obtain ⟨line', hfront⟩ := exists_piecesFrom_marks hmarks line
      refine ⟨marks ++ [t] ++ ts, last, hreads.append hmore, hend, ?_⟩
      rw [List.append_assoc, hfront, List.singleton_append, piecesFrom_content hproper, hpieces,
        Spot.settle, Spot.after_word]
      simp
    | remark text own =>
      obtain ⟨t, next, hreads, hfront, hnext⟩ := reads_remark h hlegible
      obtain ⟨ts, last, hmore, hend, hpieces⟩ := ih hnext horderly hstepwise hps
      refine ⟨t :: ts, last, hreads.append hmore, hend, ?_⟩
      rw [piecesFrom, hpieces, Spot.settle, ← hfront]
      rfl
    | opens => exact of_mark (Or.inl rfl)
    | closes => exact of_mark (Or.inr (Or.inl rfl))
    | ends => exact of_mark (Or.inr (Or.inr rfl))

end Lexer

/-! ## Reading a whole page -/

namespace SourceText

/-- A text that starts with another character keeps all of it. -/
theorem dropMark_eq_self {cs : List Char} (h : ∀ c ∈ cs.head?, c ≠ byteOrderMark) :
    dropMark cs = cs := by
  cases cs with
  | nil => rfl
  | cons c cs => exact if_neg (h c rfl)

/-- No word starts with a byte-order mark. -/
theorem exists_chars_eq_cons {x : Lexeme} (hx : x.isContent) (h : x.Legible) :
    ∃ c cs, x.chars = c :: cs ∧ c ≠ byteOrderMark := by
  obtain ⟨c, cs, hchars, -, hscan⟩ := @Scan.ofChars_chars _ [] hx h (by simp [Scan.Apart])
  refine ⟨c, cs, hchars, ?_⟩
  rintro rfl
  rw [List.append_nil] at hscan
  cases congrArg Scan.result hscan

/-- A text without carriage returns has none to lose. -/
theorem withoutReturns_eq_self {cs : List Char} (h : '\r' ∉ cs) : withoutReturns cs = cs := by
  refine List.filter_eq_self.2 fun c hc => ?_
  simpa using fun heq : c = '\r' => h (heq ▸ hc)

end SourceText

namespace Spot

/-- No carriage return stands in front of a word. -/
theorem return_not_mem_lead (own : Bool) (s : Spot) : '\r' ∉ s.lead own := by
  have of_lineStart : ∀ n, '\r' ∉ lineStart n := fun n => by simp [lineStart]
  cases s with
  | top => exact List.not_mem_nil
  | inLine depth =>
    rw [lead]
    split
    · exact of_lineStart depth
    · decide
  | remarked depth => exact of_lineStart depth
  | fresh _ indent _ => exact of_lineStart indent

/-- No carriage return is ever written. -/
theorem return_not_mem_tail {s : Spot} {ps : List Piece} (hps : ∀ p ∈ ps, p.Proper ∧ p.lexeme.Legible) :
    '\r' ∉ s.tail ps := by
  induction ps generalizing s with
  | nil => cases s <;> simp [tail]
  | cons p ps ih =>
    obtain ⟨hproper, hlegible⟩ := hps p List.mem_cons_self
    have hmore := ih (s := s.after p) fun q hq => hps q (List.mem_cons_of_mem p hq)
    rw [tail, List.mem_append, not_or]
    refine ⟨?_, hmore⟩
    cases p with
    | word x =>
      rw [written, List.mem_append, not_or]
      exact ⟨s.return_not_mem_lead _, Scan.return_not_mem_chars hproper hlegible⟩
    | remark text own =>
      rw [written, List.mem_append, not_or]
      exact ⟨s.return_not_mem_lead _, Scan.return_not_mem_remark hlegible⟩
    | opens | closes | ends => exact List.not_mem_nil

/-- No page starts with a byte-order mark. -/
theorem head?_tail_top {ps : List Piece} (hps : ∀ p ∈ ps, p.Proper ∧ p.lexeme.Legible) :
    ∀ c ∈ (top.tail ps).head?, c ≠ SourceText.byteOrderMark := by
  -- On a fresh line a newline comes first.
  have of_fresh : ∀ {s : Spot}, s.isFresh → ∀ qs, ∀ c ∈ (s.tail qs).head?,
      c ≠ SourceText.byteOrderMark := by
    intro s hs qs
    obtain ⟨cs, hcs⟩ := exists_tail_of_isFresh hs qs
    rw [hcs]
    rintro c hc rfl
    exact absurd hc (by simp [SourceText.byteOrderMark])
  induction ps with
  | nil => simp [tail]
  | cons p ps ih =>
    obtain ⟨hproper, hlegible⟩ := hps p List.mem_cons_self
    cases p with
    | word x =>
      obtain ⟨c, cs, hchars, hc⟩ := SourceText.exists_chars_eq_cons hproper hlegible
      rw [tail, written, hchars]
      simpa using hc
    | remark text own =>
      obtain ⟨cs, hcs, -⟩ := @Scan.ofChars_remark _ [] hlegible (by simp)
      rw [tail, written, hcs]
      rintro d hd rfl
      exact absurd hd (by simp [SourceText.byteOrderMark])
    | opens => exact of_fresh rfl ps
    | closes | ends => exact ih fun q hq => hps q (List.mem_cons_of_mem _ hq)

end Spot

/-- All of a page is visible. -/
theorem visible_tail {ps : List Piece} (hps : ∀ p ∈ ps, p.Proper ∧ p.lexeme.Legible) :
    SourceText.visible (Spot.top.tail ps) = Spot.top.tail ps := by
  rw [SourceText.visible, SourceText.dropMark_eq_self (Spot.head?_tail_top hps),
    SourceText.withoutReturns_eq_self (Spot.return_not_mem_tail hps)]

/-- A page that is read as a source has the settled pieces for its tokens. -/
theorem tokenize_tail {ps : List Piece} (horderly : Spot.top.Orderly ps)
    (hstepwise : Spot.top.Stepwise ps) (hps : ∀ p ∈ ps, p.Proper ∧ p.lexeme.Legible) :
    ∃ ts, tokenize (String.ofList (Spot.top.tail ps)) = .ok ts ∧ pieces ts = Spot.top.settle ps := by
  have hbefore : (Lexer.ofSource (String.ofList (Spot.top.tail ps))).Before none .top ps := by
    refine ⟨⟨rfl, rfl, rfl⟩, ?_, by simp, fun _ => rfl, by simp⟩
    simp [Lexer.ofSource, Lexer.ofText, visible_tail hps]
  obtain ⟨ts, last, hreads, hend, hpieces⟩ :=
    Lexer.exists_reads_tail hbefore horderly hstepwise hps
  exact ⟨ts, Lexer.tokenize_eq_ok_iff.2 ⟨last, hreads, hend⟩, hpieces⟩

/-- The pieces of legible tokens are proper and legible. -/
theorem proper_and_legible_of_mem_piecesFrom (line : Option Nat) {ts : List Token}
    (h : ∀ t ∈ ts, t.lexeme.Legible) : ∀ p ∈ piecesFrom line ts, p.Proper ∧ p.lexeme.Legible := by
  induction ts generalizing line with
  | nil => simp [piecesFrom]
  | cons t ts ih =>
    intro p hp
    rw [piecesFrom, List.mem_cons] at hp
    rcases hp with rfl | hp
    · refine ⟨Piece.proper_ofLexeme _ _, ?_⟩
      rw [Piece.lexeme_ofLexeme]
      exact h t List.mem_cons_self
    · exact ih _ (fun u hu => h u (List.mem_cons_of_mem t hu)) p hp

/-- The canonical text of tokens is read as the settled pieces. -/
theorem tokenize_canonicalText {ts : List Token} (h : ∀ t ∈ ts, t.lexeme.Legible)
    (horderly : Spot.top.Orderly (pieces ts)) (hstepwise : Spot.top.Stepwise (pieces ts)) :
    ∃ us, tokenize (canonicalText Flags.normal ts) = .ok us ∧
      pieces us = Spot.top.settle (pieces ts) := by
  rw [← String.ofList_toList (s := canonicalText Flags.normal ts), canonicalText_eq_tail h]
  exact tokenize_tail horderly hstepwise (proper_and_legible_of_mem_piecesFrom none h)

end EntitySchema
