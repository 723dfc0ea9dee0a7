import EntitySchema.Proofs.Canonical.Unseen
import EntitySchema.Proofs.Lexer.Spelling
/-!
  The canonical text, piece by piece.

  A token list is laid out as a list of `Piece`s: words, remarks (each on a line of its own, or behind what
  stands before it), and the three structural marks.  While pieces are written the page is at a `Spot`, which
  knows no more of the page than the next piece needs:

      top                         nothing is written
      inLine depth                a line at depth is open
      remarked depth              a line at depth is open, but remarks stand behind it already
      fresh depth indent idle     the next line has the level indent, the last one had depth

  A spot at the start of a line counts the newline before it as not yet written.  That is how a lexer meets
  it: the newline and the margin behind it are one step of a lexer.

  `s.tail ps` is the text that the pieces `ps` add at the spot `s`, by recursion on the pieces: `s.written p`
  for the first one, and then the tail at `s.after p`.  No page occurs in it, so whatever is shown of a
  canonical text later is shown by induction on a list.

  The connection with pages is an invariant.  `p.Shows front s` says that the page `p` is where `s` says and
  that its text is `front`, but for a pending newline.  Every piece keeps it (`Page.shows_write`), a lemma for
  each kind of piece, and so does a whole list (`Typesetter.text_foldl_write`).

  Main statement: `canonicalText_eq_tail`, the canonical text of legible tokens is the tail of their pieces at
  the top.
-/

namespace EntitySchema

/-! ## Pieces -/

/-- What a page is made of. -/
inductive Piece where
  /-- Content. -/
  | word (x : Lexeme)
  /-- A comment, on a line of its own or behind what stands before it. -/
  | remark (text : String) (own : Bool)
  /-- A scope opens. -/
  | opens
  /-- A scope closes. -/
  | closes
  /-- A line ends. -/
  | ends
deriving DecidableEq

namespace Piece

/-- A lexeme as a piece; `own` says how it stands if it is a comment. -/
def ofLexeme (own : Bool) : Lexeme → Piece
  | .comment text => remark text own
  | .openScope => opens
  | .closeScope => closes
  | .endLine => ends
  | x => word x

/-- The lexeme that a piece stands for. -/
def lexeme : Piece → Lexeme
  | word x => x
  | remark text _ => .comment text
  | opens => .openScope
  | closes => .closeScope
  | ends => .endLine

/-- A word is content. -/
def Proper : Piece → Prop
  | word x => x.isContent
  | _ => True

/-- A lexeme is found again in its piece. -/
@[simp] theorem lexeme_ofLexeme (own : Bool) (x : Lexeme) : (ofLexeme own x).lexeme = x := by
  cases x <;> rfl

/-- The piece of a lexeme is a proper one. -/
theorem proper_ofLexeme (own : Bool) (x : Lexeme) : (ofLexeme own x).Proper := by
  cases x <;> trivial

/-- Content is a word, however comments would stand. -/
theorem ofLexeme_of_isContent {x : Lexeme} (own : Bool) (h : x.isContent) :
    ofLexeme own x = word x := by
  cases x with
  | comment | openScope | closeScope | endLine => cases h
  | symbol | number | string | operator | openMeta | closeMeta => rfl

/-- How a lexeme stands matters only if it is a comment. -/
theorem ofLexeme_own {x : Lexeme} (h : ¬ x.isComment) (own : Bool) :
    ofLexeme own x = ofLexeme true x := by
  cases x with
  | comment => exact absurd rfl h
  | symbol | number | string | operator | openScope | closeScope | endLine | openMeta | closeMeta => rfl

end Piece

/-- The pieces of tokens that follow a token on `line`.  A comment on a later line stands alone. -/
def piecesFrom (line : Option Nat) : List Token → List Piece
  | [] => []
  | t :: ts => .ofLexeme (line.all (· < t.position.line)) t.lexeme ::
      piecesFrom (some t.position.line) ts

/-- The pieces of a token list. -/
def pieces (ts : List Token) : List Piece := piecesFrom none ts

/-- In their pieces tokens are found again, but for their places. -/
theorem map_lexeme_piecesFrom (line : Option Nat) (ts : List Token) :
    (piecesFrom line ts).map Piece.lexeme = ts.map Token.lexeme := by
  induction ts generalizing line with
  | nil => rfl
  | cons t ts ih => simp [piecesFrom, ih]

/-- Without comments the pieces of tokens are those of their lexemes. -/
theorem piecesFrom_eq_map {ts : List Token} (h : ∀ t ∈ ts, ¬ t.isComment) (line : Option Nat) :
    piecesFrom line ts = (ts.map (·.lexeme)).map (Piece.ofLexeme true) := by
  induction ts generalizing line with
  | nil => rfl
  | cons t ts ih =>
    rw [piecesFrom, Piece.ofLexeme_own (h t List.mem_cons_self), ih fun u hu => h u (List.mem_cons_of_mem t hu)]
    rfl

/-! ## Spots -/

/-- Where a page is while it is written. -/
inductive Spot where
  /-- Nothing is written. -/
  | top
  /-- Behind a word of a line at `depth`. -/
  | inLine (depth : Nat)
  /-- On a fresh line, behind the remarks after a line at `depth` that has not ended. -/
  | remarked (depth : Nat)
  /-- On a fresh line at `indent`, after lines at `depth`.  Nothing is `idle` once a word is written. -/
  | fresh (depth indent : Nat) (idle : Bool)
deriving DecidableEq

namespace Spot

/-- The level of the next fresh line. -/
@[simp] def indent : Spot → Nat
  | top => 0
  | inLine depth => depth
  | remarked depth => depth
  | fresh _ indent _ => indent

/-- The spot after a piece. -/
@[simp] def after : Spot → Piece → Spot
  | top, .word _ => inLine 0
  | top, .remark _ _ => fresh 0 0 true
  | top, .opens => fresh 0 1 true
  | top, .closes | top, .ends => top
  | inLine depth, .word _ => inLine depth
  | inLine depth, .remark _ _ => remarked depth
  | inLine depth, .opens => fresh depth (depth + 1) false
  | inLine depth, .closes => inLine (depth - 1)
  | inLine depth, .ends => fresh depth depth false
  | remarked depth, .word _ => inLine depth
  | remarked depth, .remark _ _ => remarked depth
  | remarked depth, .opens => fresh depth (depth + 1) false
  | remarked depth, .closes => fresh depth (depth - 1) false
  | remarked depth, .ends => fresh depth depth false
  | fresh _ indent _, .word _ => inLine indent
  | fresh depth indent idle, .opens => fresh depth (indent + 1) idle
  | fresh depth indent idle, .closes => fresh depth (indent - 1) idle
  | fresh depth indent idle, .remark _ _ | fresh depth indent idle, .ends => fresh depth indent idle

/-- A newline and the margin of a line at a level. -/
def lineStart (level : Nat) : List Char := '\n' :: List.replicate (2 * level) ' '

/-- What stands before the next word, or before the next remark if that has a line of its `own`. -/
@[simp] def lead (own : Bool) : Spot → List Char
  | top => []
  | inLine depth => if own then lineStart depth else [' ']
  | remarked depth => lineStart depth
  | fresh _ indent _ => lineStart indent

/-- What a piece adds to the page. -/
@[simp] def written (s : Spot) : Piece → List Char
  | .word x => s.lead false ++ x.chars
  | .remark text own => s.lead own ++ Lexeme.remark text
  | .opens | .closes | .ends => []

/-- What is left to write if no piece follows. -/
@[simp] def finish : Spot → List Char
  | top | inLine _ => []
  | remarked _ | fresh _ _ _ => ['\n']

/-- The text that pieces add to the page. -/
def tail (s : Spot) : List Piece → List Char
  | [] => s.finish
  | p :: ps => s.written p ++ (s.after p).tail ps

/-- A fresh line waits to be written. -/
def isFresh : Spot → Bool
  | top | inLine _ => false
  | remarked _ | fresh _ _ _ => true

/-- Behind a word its line is open, and its level is that of the spot. -/
theorem after_word (s : Spot) (x : Lexeme) : s.after (.word x) = inLine s.indent := by
  cases s <;> rfl

/-- A fresh line starts with its newline, whatever follows. -/
theorem exists_tail_of_isFresh {s : Spot} (h : s.isFresh) (ps : List Piece) :
    ∃ cs, s.tail ps = '\n' :: cs := by
  induction ps generalizing s with
  | nil =>
    cases s with
    | top | inLine => cases h
    | remarked | fresh => exact ⟨[], rfl⟩
  | cons p ps ih =>
    cases s with
    | top | inLine => cases h
    | remarked | fresh =>
      cases p with
      | word | remark => exact ⟨_, rfl⟩
      | opens | closes | ends => exact ih rfl

/-- A word is followed by a blank, a newline, or nothing, so a lexer finds its end where it is.  The end of a
scope adds nothing to the page and leaves the line open, so this one case goes on to the next piece. -/
theorem boundary_tail_inLine (depth : Nat) (ps : List Piece) :
    Scan.Boundary ((inLine depth).tail ps) := by
  have of_fresh : ∀ {s : Spot}, s.isFresh → ∀ qs, Scan.Boundary (s.tail qs) := by
    intro s hs qs
    obtain ⟨cs, hcs⟩ := exists_tail_of_isFresh hs qs
    simp [Scan.Boundary, hcs]
  induction ps generalizing depth with
  | nil => simp [Scan.Boundary, tail, finish]
  | cons p ps ih =>
    cases p with
    | word => simp [Scan.Boundary, tail, written, lead]
    | remark text own => cases own <;> simp [Scan.Boundary, tail, written, lead, lineStart]
    | opens | ends => exact of_fresh rfl ps
    | closes => exact ih (depth - 1)

end Spot

/-! ## The page at a spot -/

/-- The page is where the spot says.  The `depth` of a fresh line is not among what a page knows. -/
def Page.At (p : Page) : Spot → Prop
  | .top => p = Page.empty
  | .inLine depth => 0 < p.column ∧ p.indent = depth
  | .remarked depth => p.column = 0 ∧ 0 < p.line ∧ p.indent = depth
  | .fresh _ indent _ => p.column = 0 ∧ 0 < p.line ∧ p.indent = indent

/-- The page is where the spot says, and all that is written but for a pending newline is `front`. -/
def Page.Shows (p : Page) (front : List Char) (s : Spot) : Prop :=
  p.At s ∧ p.text.toList = front ++ s.finish

namespace Page

/-- Content that can be written is written in at least one character. -/
theorem chars_ne_nil {x : Lexeme} (hx : x.isContent) (h : x.Legible) : x.chars ≠ [] := by
  obtain ⟨c, cs, hc, -⟩ := @Scan.ofChars_chars _ [] hx h (by simp [Scan.Apart])
  simp [hc]

/-- Content has a word to be written. -/
theorem word?_of_isContent {x : Lexeme} (hx : x.isContent) : x.word? = some (String.ofList x.chars) := by
  have h : x.word?.isSome := by
    cases x with
    | comment | openScope | closeScope | endLine => cases hx
    | symbol | number | string | operator | openMeta | closeMeta => rfl
  obtain ⟨word, hword⟩ := Option.isSome_iff_exists.1 h
  simp [Lexeme.chars, hword, String.ofList_toList]

/-- A word is written behind its margin at the start of a line, and behind a blank elsewhere. -/
theorem text_putWord (p : Page) (word : String) : (p.putWord word).text.toList =
    p.text.toList ++ ((if p.column = 0 then List.replicate (2 * p.indent) ' ' else [' ']) ++
      word.toList) := by
  simp only [putWord, atLineStart, beq_iff_eq]
  split <;> simp [put, margin]

/-- Behind a word the page is not at the start of a line. -/
theorem column_putWord (p : Page) {word : String} (h : word.toList ≠ []) :
    0 < (p.putWord word).column := by
  have : 0 < word.length := by rw [← String.length_toList]; exact List.length_pos_iff.2 h
  simp only [putWord, put]
  omega

/-- A word does not change the level. -/
theorem indent_putWord (p : Page) (word : String) : (p.putWord word).indent = p.indent := by
  simp only [putWord]
  split <;> rfl

/-- The level of the page is that of the spot. -/
theorem indent_of_at {p : Page} {s : Spot} (h : p.At s) : p.indent = s.indent := by
  cases s with
  | top => cases h; rfl
  | inLine => exact h.2
  | remarked => exact h.2.2
  | fresh => exact h.2.2

/-- What stands between a page and its next word is the lead of the spot. -/
theorem shows_putWord {p : Page} {front : List Char} {s : Spot} {word : String} (h : p.Shows front s)
    (hword : word.toList ≠ []) :
    (p.putWord word).Shows (front ++ (s.lead false ++ word.toList)) (.inLine s.indent) := by
  obtain ⟨hat, htext⟩ := h
  refine ⟨⟨column_putWord p hword, ?_⟩, ?_⟩
  · rw [indent_putWord, indent_of_at hat]
  rw [text_putWord, htext]
  cases s with
  | top => cases hat; simp [empty, Spot.lead, Spot.finish]
  | inLine => simp [Nat.ne_of_gt hat.1, Spot.lead, Spot.finish]
  | remarked => simp [hat.1, hat.2.2, Spot.lead, Spot.lineStart, Spot.finish]
  | fresh => simp [hat.1, hat.2.2, Spot.lead, Spot.lineStart, Spot.finish]

/-- A line that is open is finished by a newline, which the next fresh line counts as its own. -/
theorem shows_newline {p : Page} {front : List Char} {depth : Nat} (h : p.Shows front (.inLine depth)) :
    p.newline.Shows front (.fresh depth depth false) := by
  obtain ⟨⟨-, hindent⟩, htext⟩ := h
  exact ⟨⟨rfl, Nat.succ_pos _, hindent⟩, by simp [newline, htext, Spot.finish]⟩

/-- A line that is open is ended by a newline. -/
theorem endLine_of_at_inLine {p : Page} {depth : Nat} (h : p.At (.inLine depth)) :
    p.endLine = p.newline := by
  simp [endLine, atLineStart, Nat.ne_of_gt h.1]

/-- Anywhere else there is no line to end. -/
theorem endLine_of_at {p : Page} {s : Spot} (h : p.At s) (hs : ∀ depth, s ≠ .inLine depth) :
    p.endLine = p := by
  have hcol : p.column = 0 := by
    cases s with
    | top => cases h; rfl
    | inLine depth => exact absurd rfl (hs depth)
    | remarked => exact h.1
    | fresh => exact h.1
  simp [endLine, atLineStart, hcol]

/-- A comment is written as the word of its remark, and a newline behind it. -/
theorem exists_write_comment (text : String) : ∃ word : String, word.toList = Lexeme.remark text ∧
    word.toList ≠ [] ∧ ∀ p : Page, p.write (.comment text) = (p.putWord word).newline := by
  refine ⟨if text.isEmpty then "#" else "# " ++ text, ?_, ?_, fun _ => rfl⟩
  · unfold Lexeme.remark
    split <;> simp
  · split <;> simp

/-- A remark is a word behind which the line ends. -/
theorem shows_remark {p : Page} {front : List Char} {s : Spot} (h : p.Shows front s) (text : String)
    (own : Bool) :
    ((if own then p.endLine else p).write (.comment text)).Shows
      (front ++ s.written (.remark text own)) (s.after (.remark text own)) := by
  obtain ⟨word, hword, hne, hwrite⟩ := exists_write_comment text
  -- The text is a word like others, on the line that is open or on one of its own.
  have hwritten : ((if own then p.endLine else p).putWord word).Shows
      (front ++ s.written (.remark text own)) (.inLine s.indent) := by
    rw [Spot.written, ← hword]
    cases s with
    | inLine depth =>
      cases own with
      | true =>
        rw [if_pos rfl, endLine_of_at_inLine h.1]
        exact shows_putWord (shows_newline h) hne
      | false => exact shows_putWord h hne
    | top | remarked | fresh =>
      rw [endLine_of_at h.1 (by simp), ite_self]
      exact shows_putWord h hne
  obtain ⟨⟨-, hindent⟩, htext⟩ := hwritten
  rw [hwrite]
  cases s with
  | top | inLine | remarked | fresh =>
    exact ⟨⟨rfl, Nat.succ_pos _, hindent⟩, by simp [newline, htext]⟩

/-- The start of a scope ends the line in front of it and makes the next one deeper. -/
theorem shows_openScope {p : Page} {front : List Char} {s : Spot} (h : p.Shows front s) :
    (p.write .openScope).Shows (front ++ s.written .opens) (s.after .opens) := by
  obtain ⟨hat, htext⟩ := h
  cases s with
  | top =>
    cases hat
    exact ⟨⟨rfl, Nat.succ_pos _, rfl⟩, by
      simpa [write, empty, atLineStart, newline, deeper] using htext⟩
  | inLine depth =>
    have hstart : ¬ (p.line = 0 ∧ p.atLineStart) := by simp [atLineStart, Nat.ne_of_gt hat.1]
    obtain ⟨⟨hcol, hline, hindent⟩, htext⟩ := shows_newline ⟨hat, htext⟩
    simp only [write, if_neg hstart, endLine_of_at_inLine hat]
    exact ⟨⟨hcol, hline, congrArg (· + 1) hindent⟩, by simpa [deeper] using htext⟩
  | remarked | fresh =>
    have hstart : ¬ (p.line = 0 ∧ p.atLineStart) := fun hc => Nat.ne_of_gt hat.2.1 hc.1
    simp only [write, if_neg hstart, endLine_of_at hat (by simp)]
    exact ⟨⟨hat.1, hat.2.1, congrArg (· + 1) hat.2.2⟩, by simpa [deeper] using htext⟩

/-- The end of a scope makes the next line shallower and writes nothing. -/
theorem shows_closeScope {p : Page} {front : List Char} {s : Spot} (h : p.Shows front s) :
    (p.write .closeScope).Shows (front ++ s.written .closes) (s.after .closes) := by
  obtain ⟨hat, htext⟩ := h
  cases s with
  | top => cases hat; exact ⟨rfl, by simpa [write, shallower] using htext⟩
  | inLine => exact ⟨⟨hat.1, congrArg (· - 1) hat.2⟩, by simpa [write, shallower] using htext⟩
  | remarked | fresh =>
    exact ⟨⟨hat.1, hat.2.1, congrArg (· - 1) hat.2.2⟩, by simpa [write, shallower] using htext⟩

/-- The end of a line is a newline if the line is open, and nothing if it is not. -/
theorem shows_endLine {p : Page} {front : List Char} {s : Spot} (h : p.Shows front s) :
    (p.write .endLine).Shows (front ++ s.written .ends) (s.after .ends) := by
  cases s with
  | inLine depth =>
    simp only [write, endLine_of_at_inLine h.1]
    simpa using shows_newline h
  | top | remarked | fresh =>
    simp only [write, endLine_of_at h.1 (by simp)]
    rw [Spot.written, List.append_nil]
    exact h

/-- Content is written as a word. -/
theorem shows_content {p : Page} {front : List Char} {s : Spot} {x : Lexeme} (h : p.Shows front s)
    (hx : x.isContent) (hchars : x.chars ≠ []) :
    (p.write x).Shows (front ++ s.written (.word x)) (s.after (.word x)) := by
  have hne : (String.ofList x.chars).toList ≠ [] := by simpa using hchars
  have hwrite : p.write x = p.putWord (String.ofList x.chars) := by
    have hword := word?_of_isContent hx
    cases x with
    | comment | openScope | closeScope | endLine => cases hx
    | symbol | number | string | operator | openMeta | closeMeta =>
      simp only [write, hword, Lexeme.isComment, Bool.false_eq_true, if_false]
  rw [hwrite, Spot.after_word]
  simpa using shows_putWord h hne

/-- A lexeme adds its piece to the page, where a comment with a line of its own finishes the line before it. -/
theorem shows_write {p : Page} {front : List Char} {s : Spot} {x : Lexeme} (h : p.Shows front s)
    (hchars : x.isContent → x.chars ≠ []) (own : Bool) :
    ((if x.isComment && own then p.endLine else p).write x).Shows (front ++ s.written (.ofLexeme own x))
      (s.after (.ofLexeme own x)) := by
  cases x with
  | comment text => exact shows_remark h text own
  | openScope => exact shows_openScope h
  | closeScope => exact shows_closeScope h
  | endLine => exact shows_endLine h
  | symbol | number | string | operator | openMeta | closeMeta => exact shows_content h rfl (hchars rfl)

end Page

/-! ## Canonical texts -/

namespace Typesetter

/-- A token is written by its lexeme, and a comment on a later line than the token before it ends the line
first. -/
theorem write_normal (s : Typesetter) (t : Token) : s.write Flags.normal t =
    ⟨(if t.isComment && s.lastLine.any (· < t.position.line) then s.page.endLine else s.page).write
      t.lexeme, some t.position.line⟩ := by
  have : Flags.normal.dropsComments = false := by decide
  simp [write, this]

/-- Every token adds its piece to the page. -/
theorem shows_write {s : Typesetter} {front : List Char} {spot : Spot} {t : Token}
    (h : s.page.Shows front spot) (hfirst : s.lastLine = none → spot = .top)
    (ht : t.lexeme.Legible) :
    let p := Piece.ofLexeme (s.lastLine.all (· < t.position.line)) t.lexeme
    (s.write Flags.normal t).page.Shows (front ++ spot.written p) (spot.after p) := by
  rw [write_normal, Token.isComment]
  generalize t.lexeme = x at ht ⊢
  have hchars : x.isContent → x.chars ≠ [] := fun hx => Page.chars_ne_nil hx ht
  cases hline : s.lastLine with
  | some line => exact Page.shows_write h hchars _
  | none =>
    -- In front of everything a comment has its line without finishing another.
    cases hfirst hline
    have hwrite := Page.shows_write h hchars false
    cases x <;> exact hwrite

/-- Tokens in a row add the tail of their pieces.  By induction on the tokens; the page of the induction has
been written up to `front` and a pending newline. -/
theorem text_foldl_write {ts : List Token} {s : Typesetter} {front : List Char} {spot : Spot}
    (h : s.page.Shows front spot) (hfirst : s.lastLine = none → spot = .top)
    (hts : ∀ t ∈ ts, t.lexeme.Legible) :
    (ts.foldl (write Flags.normal) s).page.text.toList =
      front ++ spot.tail (piecesFrom s.lastLine ts) := by
  induction ts generalizing s front spot with
  | nil => exact h.2
  | cons t ts ih =>
    have hstep := shows_write h hfirst (hts t List.mem_cons_self)
    have hline : (s.write Flags.normal t).lastLine = some t.position.line := by rw [write_normal]
    rw [List.foldl_cons, ih hstep (by simp [hline]) fun u hu => hts u (List.mem_cons_of_mem t hu)]
    simp [piecesFrom, Spot.tail, hline]

end Typesetter

/-- The canonical text of legible tokens is that of their pieces. -/
theorem canonicalText_eq_tail {ts : List Token} (h : ∀ t ∈ ts, t.lexeme.Legible) :
    (canonicalText Flags.normal ts).toList = Spot.top.tail (pieces ts) :=
  @Typesetter.text_foldl_write _ ⟨Page.empty, none⟩ [] _ ⟨rfl, by simp [Page.empty]⟩
    (fun _ => rfl) h

/-- The text without comments is that of what is left, with every token written. -/
theorem canonicalText_discardComments (ts : List Token) :
    canonicalText Flags.discardComments ts =
      canonicalText Flags.normal (Token.withoutComments ts) :=
  (canonicalText_withoutComments (by decide) Flags.normal ts).symm

end EntitySchema
