import EntitySchema.Lexer
import EntitySchema.Reader
/-!
  Reading tokens off a source as it stands.

  A source is not cleaned before it is read.  Its carriage returns are met wherever a token is read: in front
  of a character that is looked at and put back, in the middle of a word, of a margin or of a line end, and
  within the comments and strings that are taken in bulk.  A `SourceLexer` reads through a `Reader`, one
  character at a time where it has to look ahead, and knows of the layout what a lexer knows.

  `s.onText` is the lexer that stands before the same text with the carriage returns gone.  The two take the
  same steps, `s.step.map onText = s.onText.step` (`step_onText`), and from that the square is carried along
  everything that is built of steps:
  * the next token: `next_onText`,
  * all tokens: `collect_onText`,
  * a whole source: `lex source = (Lexer.ofSource source).collect #[]` (`lex_eq_collect`).

  So whatever is known of a lexer holds of what a source is read as.  The proof of `step_onText` has a lemma
  for each part of a step, `enterLine_onText`, `textEnd_onText`, `lineBreak_onText` and `scan_onText`; each
  follows the branches of the part and asks the reader what it passes (`Reader.Passes`).
-/

namespace EntitySchema

/-- A lexer that reads through a reader. -/
structure SourceLexer where
  reader : Reader
  /-- The number of scopes that have been opened and not closed. -/
  depth : Nat
  /-- The level of the line that is being read. -/
  target : Nat
  /-- No line is open: it ended, or has not started since a scope opened. -/
  ended : Bool

namespace SourceLexer

open Lexer (Step)

/-- A lexer before the first character of a source. -/
def ofSource (source : String) : SourceLexer := ⟨Reader.ofText source.toList, 0, 0, true⟩

/-! ## One step -/

/-- A line at `level` starts where `here` stands: the line before it ends at the place of `s`, unless the
new line is deeper or nothing is left to end. -/
def enterLine (s : SourceLexer) (here : Reader) (level : Nat) : Step SourceLexer :=
  if level ≤ s.depth ∧ ¬ s.ended then
    .token ⟨.endLine, s.reader.position⟩ { s with reader := here, target := level, ended := true }
  else .silent { s with reader := here, target := level }

/-- A newline was handed out, and `line` is the reader behind it.  The margin is read, and the character
after it is looked at and put back unless it is a tab. -/
def lineBreak (s : SourceLexer) (line : Reader) : Step SourceLexer :=
  let (margin, behind) := line.run (· = ' ') #[]
  let spaces := margin.length
  let level := spaces / 2
  match behind.next with
  | (none, here) => s.enterLine here 0
  | (some c, after) =>
    let here := after.putBack
    if c = '\t' then .fault ⟨.badIndent c, behind.position⟩ { s with reader := after }
    else if c = '\n' ∨ c = '#' then .silent { s with reader := here }
    else if spaces % 2 ≠ 0 then .fault ⟨.oddIndent spaces, line.position⟩ { s with reader := here }
    else if s.depth + 1 < level then
      .fault ⟨.deepIndent (s.depth + 1) level, here.position⟩ { s with reader := here }
    else s.enterLine here level

/-- The reader is at its end: the last line ends, then the open scopes close one by one. -/
def textEnd (s : SourceLexer) : Step SourceLexer :=
  if s.depth = 0 then .finished
  else if ¬ s.ended then .token ⟨.endLine, s.reader.position⟩ { s with target := 0, ended := true }
  else .token ⟨.closeScope, s.reader.position⟩ { s with target := 0, depth := s.depth - 1 }

/-- What `c` starts, which was just handed out, and the reader behind it. -/
def lexemeOf (c : Char) (r : Reader) : Except LexFault Lexeme × Reader :=
  if c = '#' then
    let (text, after) := r.restOfLine
    (.ok (.comment (String.ofList (Text.trim text))), after)
  else if c.isAlpha then
    let (more, after) := r.run Scan.isSymbolChar #[]
    (.ok (.symbol (String.ofList (c :: more))), after)
  else if c.isDigit || c = '-' then
    let (digits, after) := r.run Char.isDigit #[]
    (Scan.numberOf c digits, after)
  else if Scan.isQuote c then
    match r.upTo c with
    | (some text, after) => (.ok (.string (String.ofList text)), after)
    | (none, after) => (.error .unclosedString, after)
  else (Scan.singleOf c, r)

/-- A lexeme or a fault starts with `c`, which was just handed out.  Content opens a line, a comment does
not. -/
def scan (s : SourceLexer) (c : Char) (r : Reader) : Step SourceLexer :=
  match lexemeOf c r with
  | (.ok lexeme, after) =>
    .token ⟨lexeme, s.reader.position⟩ { s with reader := after, ended := lexeme.isComment && s.ended }
  | (.error fault, after) => .fault ⟨fault, s.reader.position⟩ { s with reader := after }

/-- One step.  Scopes that the current line opens or closes come before anything that stands on it. -/
def step (s : SourceLexer) : Step SourceLexer :=
  if s.depth < s.target then
    .token ⟨.openScope, s.reader.position⟩ { s with depth := s.depth + 1, ended := true }
  else if s.target < s.depth then
    .token ⟨.closeScope, s.reader.position⟩ { s with depth := s.depth - 1 }
  else match s.reader.next with
    | (none, here) => textEnd { s with reader := here }
    | (some c, after) =>
      if c = '\n' then s.lineBreak after
      else if Scan.isSeparator c then .silent { s with reader := after }
      else s.scan c after

/-! ## The same steps on the text -/

/-- The lexer before the text that the reader has in front of it. -/
def onText (s : SourceLexer) : Lexer := ⟨s.reader.text, s.reader.position, s.depth, s.target, s.ended⟩

variable {s : SourceLexer} {r after here : Reader} {c : Char} {cs taken : List Char}

theorem onText_ofSource (source : String) : (ofSource source).onText = Lexer.ofSource source := by
  rw [onText, ofSource, Reader.text_ofText]
  rfl

/-- The reader has passed what the lexer has passed. -/
theorem onText_of_passes (h : s.reader.Passes after taken) :
    { s with reader := after }.onText = s.onText.past taken after.text := by
  rw [onText, Lexer.past, h.position_eq]
  rfl

theorem enterLine_onText (s : SourceLexer) (here : Reader) (level : Nat) :
    (s.enterLine here level).map onText = s.onText.enterLine { s with reader := here }.onText level := by
  rw [enterLine, apply_ite (Step.map onText)]
  rfl

theorem textEnd_onText (s : SourceLexer) : s.textEnd.map onText = s.onText.textEnd := by
  rw [textEnd, apply_ite (Step.map onText), apply_ite (Step.map onText)]
  rfl

/-- Behind a newline the margin and the character after it are found through any carriage returns. -/
theorem lineBreak_onText (h : s.reader.Passes r ['\n']) :
    (s.lineBreak r).map onText = s.onText.lineBreak r.text := by
  obtain ⟨behind, hrun, hmargin⟩ := r.exists_run (· = ' ') #[]
  have hline := h.trans hmargin
  simp only [lineBreak, Lexer.lineBreak, hrun, List.nil_append, ← hmargin.text_of_takeWhile]
  cases htext : behind.text with
  -- At the end of the text nothing is put back.
  | nil =>
    obtain ⟨here, hnext, hpasses⟩ := Reader.exists_next_of_text_nil htext
    have hhere := onText_of_passes (hline.trans hpasses)
    rw [List.append_nil, hpasses.text_of_nil, htext] at hhere
    simp only [hnext, enterLine_onText, hhere]
    rfl
  | cons c more =>
    -- Of the line only the first character is read, and it is put back.
    obtain ⟨after, hnext, hpasses, hback⟩ := Reader.exists_next_of_text_cons htext
    have hhere := onText_of_passes (hline.trans hback)
    have hafter := onText_of_passes (hline.trans hpasses)
    rw [List.append_nil, hback.text_of_nil, htext] at hhere
    rw [hpasses.text_of_singleton htext, ← Lexer.past_past _ _ (c :: more)] at hafter
    have hstart : r.position = s.onText.position.nextLine := h.position_eq
    have hplace : after.putBack.position = behind.position := hback.position_eq
    simp only [hnext, apply_ite (Step.map onText), Step.map_fault, Step.map_silent, enterLine_onText,
      hhere, hafter, hstart, hplace, hline.position_eq]
    rfl

/-- The character starts the same lexeme or fault, and the reader passes what it takes.  One case for each
kind of lexeme; which of the reads of `Reader` is used differs, what is known of it has the same form. -/
theorem lexemeOf_eq (c : Char) (r : Reader) :
    ∃ after, lexemeOf c r = ((Scan.ofChars c r.text).result, after) ∧
      after.text = (Scan.ofChars c r.text).rest ∧
      ∃ more, (Scan.ofChars c r.text).taken = c :: more ∧ r.Passes after more := by
  unfold lexemeOf Scan.ofChars
  split
  · next hsign =>
    obtain ⟨after, hline, hpasses⟩ := r.exists_restOfLine
    rw [hline]
    exact ⟨after, rfl, hpasses.text_of_takeWhile, _, by rw [hsign]; rfl, hpasses⟩
  split
  · obtain ⟨after, hrun, hpasses⟩ := r.exists_run Scan.isSymbolChar #[]
    rw [hrun]
    exact ⟨after, rfl, hpasses.text_of_takeWhile, _, rfl, hpasses⟩
  split
  · obtain ⟨after, hrun, hpasses⟩ := r.exists_run Char.isDigit #[]
    rw [hrun]
    exact ⟨after, rfl, hpasses.text_of_takeWhile, _, rfl, hpasses⟩
  split
  · next hquote =>
    -- A reader that goes up to a quote counts columns only, and so takes quotes that end no line.
    have hplain : c ≠ '\r' ∧ c ≠ '\n' := by
      constructor
      · rintro rfl
        exact absurd hquote (by decide)
      · rintro rfl
        exact absurd hquote (by decide)
    rw [Scan.string]
    rcases Reader.exists_upTo hplain.1 hplain.2 r with ⟨hnone, after, hread, hpasses⟩ |
      ⟨after, hsome, hread, hpasses⟩
    · simp only [hread, hnone]
      have hnil : after.text = [] := List.append_right_eq_self.1 hpasses.text_eq.symm
      exact ⟨after, rfl, hnil, r.text, rfl, hpasses⟩
    · simp only [hread, hsome]
      exact ⟨after, rfl, rfl, _, rfl, hpasses⟩
  · exact ⟨r, rfl, rfl, [], rfl, rfl, rfl⟩

/-- A lexeme or a fault is found at the same place, and leads to the same text. -/
theorem scan_onText (h : s.reader.Passes r [c]) : (s.scan c r).map onText = s.onText.scan c r.text := by
  obtain ⟨after, heq, hrest, more, htaken, hpasses⟩ := lexemeOf_eq c r
  have hafter := onText_of_passes (h.trans hpasses)
  rw [List.singleton_append, ← htaken, hrest] at hafter
  rw [scan, heq, Lexer.scan]
  cases (Scan.ofChars c r.text).result with
  | ok lexeme =>
    show Step.token _ { { s with reader := after }.onText with ended := lexeme.isComment && s.ended } = _
    rw [hafter]
    rfl
  | error fault =>
    show Step.fault _ { s with reader := after }.onText = _
    rw [hafter]
    rfl

/-- **Through its carriage returns a source is read in the same steps.** -/
theorem step_onText (s : SourceLexer) : s.step.map onText = s.onText.step := by
  rw [step, Lexer.step]
  by_cases hopens : s.depth < s.target
  · rw [if_pos hopens, if_pos (show s.onText.depth < s.onText.target from hopens)]
    rfl
  rw [if_neg hopens, if_neg (show ¬ s.onText.depth < s.onText.target from hopens)]
  by_cases hcloses : s.target < s.depth
  · rw [if_pos hcloses, if_pos (show s.onText.target < s.onText.depth from hcloses)]
    rfl
  rw [if_neg hcloses, if_neg (show ¬ s.onText.target < s.onText.depth from hcloses)]
  -- At rest both look at the next visible character.
  rw [show s.onText.rest = s.reader.text from rfl]
  cases htext : s.reader.text with
  | nil =>
    obtain ⟨here, hnext, hpasses⟩ := Reader.exists_next_of_text_nil htext
    have hhere : { s with reader := here }.onText = s.onText := by
      rw [onText_of_passes hpasses, hpasses.text_of_nil]
      rfl
    simp only [hnext, textEnd_onText, hhere]
  | cons c cs =>
    obtain ⟨after, hnext, hpasses, -⟩ := Reader.exists_next_of_text_cons htext
    have hafter := onText_of_passes hpasses
    obtain rfl := hpasses.text_of_singleton htext
    simp only [hnext, apply_ite (Step.map onText), Step.map_silent, hafter, scan_onText hpasses]
    by_cases hc : c = '\n'
    · subst hc
      rw [if_pos rfl, if_pos rfl, lineBreak_onText hpasses]
    · rw [if_neg hc, if_neg hc]

/-! ## Reading on -/

/-- The next token, nothing at the end of the source, or a fault; and the lexer after it. -/
def next (s : SourceLexer) : Except LexError (Option Token) × SourceLexer :=
  match _h : s.step with
  | .token t after => (.ok (some t), after)
  | .silent after => after.next
  | .fault e after => (.error e, after)
  | .finished => (.ok none, s)
termination_by s.onText.work
decreasing_by exact Lexer.step_work_lt (by rw [← step_onText, _h]; rfl)

/-- Whatever is next in the source is next in its text, by the recursion of `next`: a silent step is silent on
both sides. -/
theorem next_onText (s : SourceLexer) : s.onText.next = (s.next.1, s.next.2.onText) := by
  induction s using next.induct with
  | case1 s t after hs =>
    have hstep : s.onText.step = .token t after.onText := by rw [← step_onText, hs, Step.map_token]
    rw [Lexer.next_of_token hstep, next]
    split <;> simp_all
  | case2 s after hs ih =>
    have hstep : s.onText.step = .silent after.onText := by rw [← step_onText, hs, Step.map_silent]
    have hnext : s.next = after.next := by
      rw [next]
      split <;> simp_all
    rw [Lexer.next_of_silent hstep, ih, hnext]
  | case3 s e after hs =>
    have hstep : s.onText.step = .fault e after.onText := by rw [← step_onText, hs, Step.map_fault]
    rw [Lexer.next_of_fault hstep, next]
    split <;> simp_all
  | case4 s hs =>
    have hstep : s.onText.step = .finished := by rw [← step_onText, hs, Step.map_finished]
    rw [Lexer.next_of_finished hstep, next]
    split <;> simp_all

/-- What `count` calls of `next` report, each with the place reached: reading goes on after faults and
after the end. -/
def follow (s : SourceLexer) : Nat → List (Except LexError (Option Token) × Position)
  | 0 => []
  | count + 1 =>
    let (report, after) := s.next
    (report, after.reader.position) :: after.follow count

/-- Every token leaves less work than there was. -/
theorem work_of_next_lt {after : SourceLexer} {t : Token} (h : s.next = (.ok (some t), after)) :
    after.onText.work < s.onText.work := by
  have hless := Lexer.next_work_lt (l := s.onText) (by simp [next_onText, h])
  simpa [next_onText, h] using hless

/-- The tokens that `s` reads, after those in `read`. -/
def collect (s : SourceLexer) (read : Array Token) : Lexed :=
  match _h : s.next with
  | (.ok (some t), after) => after.collect (read.push t)
  | (.ok none, after) => ⟨read.toList, none, after.reader.position⟩
  | (.error e, after) => ⟨read.toList, some e, after.reader.position⟩
termination_by s.onText.work
decreasing_by exact work_of_next_lt _h

/-- A token is added to those read before it. -/
theorem collect_of_next {after : SourceLexer} {t : Token} (h : s.next = (.ok (some t), after))
    (read : Array Token) : s.collect read = after.collect (read.push t) := by
  rw [collect]
  split <;> simp_all

/-- The end of the source. -/
theorem collect_of_end {after : SourceLexer} (h : s.next = (.ok none, after)) (read : Array Token) :
    s.collect read = ⟨read.toList, none, after.reader.position⟩ := by
  rw [collect]
  split <;> simp_all

/-- A fault is the last that is read. -/
theorem collect_of_error {after : SourceLexer} {e : LexError} (h : s.next = (.error e, after))
    (read : Array Token) : s.collect read = ⟨read.toList, some e, after.reader.position⟩ := by
  rw [collect]
  split <;> simp_all

/-- What is read of a source is what is read of its text. -/
theorem collect_onText (s : SourceLexer) (read : Array Token) :
    s.onText.collect read = s.collect read := by
  induction s, read using collect.induct with
  | case1 s read t after hn ih =>
    have hnext : s.onText.next = (.ok (some t), after.onText) := by rw [next_onText, hn]
    rw [collect_of_next hn, ← ih, Lexer.collect_of_next hnext]
  | case2 s read after hn =>
    have hnext : s.onText.next = (.ok none, after.onText) := by rw [next_onText, hn]
    rw [collect_of_end hn, Lexer.collect_of_end hnext]
    rfl
  | case3 s read e after hn =>
    have hnext : s.onText.next = (.error e, after.onText) := by rw [next_onText, hn]
    rw [collect_of_error hn, Lexer.collect_of_error hnext]
    rfl

end SourceLexer

/-! ## Whole sources -/

/-- The tokens of a source, up to its first fault. -/
def lex (source : String) : Lexed := (SourceLexer.ofSource source).collect #[]

/-- The tokens of a source without faults. -/
def tokenize (source : String) : Except LexError (List Token) :=
  let read := lex source
  match read.error with
  | none => .ok read.tokens
  | some e => .error e

/-- A source is tokenized if it is read without a fault, and then to what is read. -/
theorem tokenize_eq_ok_iff_lex {source : String} {ts : List Token} :
    tokenize source = .ok ts ↔ (lex source).error = none ∧ (lex source).tokens = ts := by
  simp only [tokenize]
  split
  · next hnone => simp [hnone]
  · next e hsome => simp [hsome]

/-- It is refused with the fault that stops the reading. -/
theorem tokenize_eq_error_iff_lex {source : String} {e : LexError} :
    tokenize source = .error e ↔ (lex source).error = some e := by
  simp only [tokenize]
  split
  · next hnone => simp [hnone]
  · next e' hsome => simp [hsome]

/-- A source is read as its visible text is. -/
theorem lex_eq_collect (source : String) : lex source = (Lexer.ofSource source).collect #[] := by
  rw [← SourceLexer.onText_ofSource, SourceLexer.collect_onText, lex]

example : (lex "a\n  b 1 # c\n").tokens.map (·.lexeme) =
    [.symbol "a", .openScope, .symbol "b", .number 1, .comment "c", .endLine, .closeScope] := by
  decide +kernel

example : (lex "a\r\n \r  b").error = some ⟨.oddIndent 3, ⟨2, 1⟩⟩ := by decide +kernel

end EntitySchema
