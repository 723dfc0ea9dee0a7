import EntitySchema.Lexer.Scan
import EntitySchema.SourceText
/-!
  Reading tokens off a text whose indentation is its structure.

  ## The layout rule

  Every level of indentation is two spaces.  A newline looks at the line after it: if that line is one level
  deeper, a scope opens; if it is not, the line before it ends, and one scope closes for every level the new
  line is shallower.  Blank lines and lines that hold only a comment are not looked at.  A line ends only
  once, and never right after a scope opened; `ended` remembers that.  Leading spaces of the very first line
  are separators like any others, because no newline stands before them.

  The end of the text ends the last line and closes what is open.

  ## The lexer

  `Lexer` is all that is remembered between two tokens, `step` takes one step with it (which may pass over
  separators or a line end in silence), and `next` steps until there is something to report.  A fault leaves
  the lexer after the characters that were read, with the layout as it was, so that reading can go on;
  `collect` reads a whole text and stops at the first fault.

  A newline only sets the `target`, the level of the line behind it.  The scopes themselves are opened and
  closed one by one, by the steps that follow: as long as `depth` and `target` differ, a step moves `depth`
  towards `target` and reads no character.

  ## Why it comes to an end

  Such steps make it plain that the length of the rest does not get less with each step.  What does is

      work = 2 * length rest + depth + 2 * (target - depth) + (1 if a line is open)

  where the difference is zero if `target` is below `depth`.  Opening a scope raises `depth` by one and lowers
  the difference by one, closing one lowers `depth`, and the spaces behind a newline, two for a level, pay
  for the levels that they add.

  Main statement: `step_work_lt`, every step leaves less work, so reading always comes to an end.
-/

namespace EntitySchema

/-- A lexer: the text it has not read, and what it knows about the layout. -/
structure Lexer where
  /-- The characters not yet read. -/
  rest : List Char
  /-- The place of the next character. -/
  position : Position
  /-- The number of scopes that have been opened and not closed. -/
  depth : Nat
  /-- The level of the line that is being read. -/
  target : Nat
  /-- No line is open: it ended, or has not started since a scope opened. -/
  ended : Bool
deriving DecidableEq

namespace Lexer

/-- One step of something that reads tokens, and what it leads to. -/
inductive Step (σ : Type) where
  /-- A token was read. -/
  | token (t : Token) (after : σ)
  /-- Something without a token was passed over. -/
  | silent (after : σ)
  /-- What stands here is no token. -/
  | fault (e : LexError) (after : σ)
  /-- The text is at its end and every scope is closed. -/
  | finished

/-- The same step, with another view of what it leads to. -/
def Step.map {σ τ : Type} (f : σ → τ) : Step σ → Step τ
  | .token t after => .token t (f after)
  | .silent after => .silent (f after)
  | .fault e after => .fault e (f after)
  | .finished => .finished

section Map

variable {σ τ : Type} (f : σ → τ) (t : Token) (e : LexError) (after : σ)

@[simp] theorem Step.map_token : (Step.token t after).map f = .token t (f after) := rfl

@[simp] theorem Step.map_silent : (Step.silent after).map f = .silent (f after) := rfl

@[simp] theorem Step.map_fault : (Step.fault e after).map f = .fault e (f after) := rfl

@[simp] theorem Step.map_finished : (Step.finished : Step σ).map f = .finished := rfl

end Map

/-- A lexer before the first character of `text`. -/
def ofText (text : List Char) : Lexer := ⟨text, Position.start, 0, 0, true⟩

/-- A lexer before the first character of a source. -/
def ofSource (source : String) : Lexer := ofText (SourceText.visible source.toList)

/-- The lexer after the characters `taken`, which stand in front of `rest`. -/
def past (l : Lexer) (taken rest : List Char) : Lexer :=
  { l with rest, position := l.position.advanceAll taken }

/-- Two stretches of text in a row are passed as one. -/
theorem past_past (l : Lexer) (taken rest more last : List Char) :
    (l.past taken rest).past more last = l.past (taken ++ more) last := by
  simp [past]

/-! ## Layout -/

/-- A line at `level` starts where `here` stands: the line before it ends at `l`'s place, unless the
new line is deeper or nothing is left to end. -/
def enterLine (l here : Lexer) (level : Nat) : Step Lexer :=
  if level ≤ l.depth ∧ ¬ l.ended then
    .token ⟨.endLine, l.position⟩ { here with target := level, ended := true }
  else .silent { here with target := level }

/-- A newline stands at `l`'s place and `cs` follow it. -/
def lineBreak (l : Lexer) (cs : List Char) : Step Lexer :=
  let spaces := cs.takeWhile (· = ' ')
  let rest := cs.dropWhile (· = ' ')
  let here := l.past ('\n' :: spaces) rest
  let level := spaces.length / 2
  match rest with
  -- At the end of the text every scope closes, however far the last line is indented.
  | [] => l.enterLine here 0
  | c :: more =>
    if c = '\t' then .fault ⟨.badIndent c, here.position⟩ (here.past [c] more)
    -- A line without content says nothing about the layout.
    else if c = '\n' ∨ c = '#' then .silent here
    else if spaces.length % 2 ≠ 0 then
      .fault ⟨.oddIndent spaces.length, l.position.nextLine⟩ here
    else if l.depth + 1 < level then .fault ⟨.deepIndent (l.depth + 1) level, here.position⟩ here
    else l.enterLine here level

/-- The text is at its end: the last line ends, then the open scopes close one by one. -/
def textEnd (l : Lexer) : Step Lexer :=
  if l.depth = 0 then .finished
  else if ¬ l.ended then .token ⟨.endLine, l.position⟩ { l with target := 0, ended := true }
  else .token ⟨.closeScope, l.position⟩ { l with target := 0, depth := l.depth - 1 }

/-- A lexeme or a fault stands at `l`'s place.  Content opens a line, a comment does not. -/
def scan (l : Lexer) (c : Char) (cs : List Char) : Step Lexer :=
  let s := Scan.ofChars c cs
  match s.result with
  | .ok lexeme =>
    .token ⟨lexeme, l.position⟩ { l.past s.taken s.rest with ended := lexeme.isComment && l.ended }
  | .error fault => .fault ⟨fault, l.position⟩ (l.past s.taken s.rest)

/-- One step.  Scopes that the current line opens or closes come before anything that stands on it. -/
def step (l : Lexer) : Step Lexer :=
  if l.depth < l.target then
    .token ⟨.openScope, l.position⟩ { l with depth := l.depth + 1, ended := true }
  else if l.target < l.depth then
    .token ⟨.closeScope, l.position⟩ { l with depth := l.depth - 1 }
  else match l.rest with
    | [] => l.textEnd
    | c :: cs =>
      if c = '\n' then l.lineBreak cs
      else if Scan.isSeparator c then .silent (l.past [c] cs)
      else l.scan c cs

/-! ## Every step leaves less work -/

/-- What is left to do: two for every character, one for every open scope, two for every scope that the
current line still opens, one for a line that has to end. -/
def work (l : Lexer) : Nat :=
  2 * l.rest.length + l.depth + 2 * (l.target - l.depth) + (!l.ended).toNat

/-- The lexer after a step that was not the last. -/
def Step.after? {σ : Type} : Step σ → Option σ
  | .token _ after | .silent after | .fault _ after => some after
  | .finished => none

/-- Entering a line at `level`: the characters that led there make up for the levels that are still to be
opened. -/
theorem enterLine_work_lt {l here l' : Lexer} {level : Nat} (hdepth : here.depth = l.depth)
    (hended : here.ended = l.ended)
    (hrest : here.rest.length + (level - l.depth) < l.rest.length)
    (h : (l.enterLine here level).after? = some l') : l'.work < l.work := by
  unfold enterLine at h
  split at h <;> simp only [Step.after?, Option.some.injEq] at h <;> subst h <;>
    simp only [work, hdepth, hended, Bool.not_true, Bool.toNat_false] <;> omega

/-- A newline leaves less work. Its margin of `2 * level` spaces is gone as well, so even a line that is many
levels deeper than the one before it would be paid for. -/
theorem lineBreak_work_lt {l l' : Lexer} {cs : List Char} (hrest : l.rest = '\n' :: cs)
    (h : (l.lineBreak cs).after? = some l') : l'.work < l.work := by
  have hlen : (cs.takeWhile (· = ' ')).length + (cs.dropWhile (· = ' ')).length = cs.length := by
    rw [← List.length_append, List.takeWhile_append_dropWhile]
  have hl : l.rest.length = cs.length + 1 := by simp [hrest]
  unfold lineBreak at h
  simp only at h
  split at h
  · next hnil =>
    rw [hnil] at h
    refine enterLine_work_lt ?_ ?_ ?_ h
    · rfl
    · rfl
    · simp [past, hl]
  · next c more hcons =>
    have hmore : (cs.dropWhile (· = ' ')).length = more.length + 1 := by rw [hcons]; rfl
    -- The three faults and the empty line stop here, and nothing but text was passed.
    have here_work : (l.past ('\n' :: cs.takeWhile (· = ' ')) (cs.dropWhile (· = ' '))).work
        < l.work := by
      simp only [past, work, hmore]
      omega
    split at h
    · simp only [Step.after?, Option.some.injEq] at h
      subst h
      simp only [past, work]
      omega
    split at h
    · simp only [Step.after?, Option.some.injEq] at h
      exact h ▸ here_work
    split at h
    · simp only [Step.after?, Option.some.injEq] at h
      exact h ▸ here_work
    split at h
    · simp only [Step.after?, Option.some.injEq] at h
      exact h ▸ here_work
    · refine enterLine_work_lt ?_ ?_ ?_ h
      · rfl
      · rfl
      · simp only [past, hmore]
        omega

/-- At the end of the text there is a line less to end or a scope less to close. -/
theorem textEnd_work_lt {l l' : Lexer} (h : l.textEnd.after? = some l') : l'.work < l.work := by
  unfold textEnd at h
  split at h
  · simp [Step.after?] at h
  split at h <;> simp only [Step.after?, Option.some.injEq] at h <;> subst h
  · next hended =>
    have open_line : l.ended = false := by simpa using hended
    simp only [work, open_line, Bool.not_true, Bool.not_false, Bool.toNat_true, Bool.toNat_false]
    omega
  · simp only [work]
    omega

/-- A lexeme takes at least one character, which makes up for the line that content opens. -/
theorem scan_work_lt {l l' : Lexer} {c : Char} {cs : List Char} (hrest : l.rest = c :: cs)
    (h : (l.scan c cs).after? = some l') : l'.work < l.work := by
  have hlt := Scan.length_rest_lt c cs
  rw [← hrest] at hlt
  unfold scan at h
  simp only at h
  split at h <;> simp only [Step.after?, Option.some.injEq] at h <;> subst h <;>
    simp only [past, work]
  · next lexeme _ =>
    have := Bool.toNat_le (!(lexeme.isComment && l.ended))
    omega
  · omega

/-- Every step but the last leaves less work than there was. -/
theorem step_work_lt {l l' : Lexer} (h : l.step.after? = some l') : l'.work < l.work := by
  unfold step at h
  split at h
  · simp only [Step.after?, Option.some.injEq] at h
    subst h
    -- A scope that opens brings the lexer one level closer to its target.
    simp only [work, Bool.not_true, Bool.toNat_false]
    omega
  split at h
  · simp only [Step.after?, Option.some.injEq] at h
    subst h
    simp only [work]
    omega
  split at h
  · exact textEnd_work_lt h
  · next c cs hrest =>
    split at h
    · next hc => exact lineBreak_work_lt (by rw [hrest, hc]) h
    split at h
    · simp only [Step.after?, Option.some.injEq] at h
      subst h
      simp only [past, work, hrest, List.length_cons]
      omega
    · exact scan_work_lt hrest h

/-! ## Reading on -/

/-- The next token, nothing at the end of the text, or a fault; and the lexer after it. -/
def next (l : Lexer) : Except LexError (Option Token) × Lexer :=
  match _h : l.step with
  | .token t after => (.ok (some t), after)
  | .silent after => after.next
  | .fault e after => (.error e, after)
  | .finished => (.ok none, l)
termination_by l.work
decreasing_by exact step_work_lt (by simp [*, Step.after?])

/-- What a step reports is next. -/
theorem next_of_token {l after : Lexer} {t : Token} (h : l.step = .token t after) :
    l.next = (.ok (some t), after) := by
  rw [next]
  split <;> simp_all

/-- A silent step is passed over. -/
theorem next_of_silent {l after : Lexer} (h : l.step = .silent after) : l.next = after.next := by
  rw [next]
  split <;> simp_all

/-- A fault is reported too. -/
theorem next_of_fault {l after : Lexer} {e : LexError} (h : l.step = .fault e after) :
    l.next = (.error e, after) := by
  rw [next]
  split <;> simp_all

/-- At the end there is nothing to report, and the lexer stays as it is. -/
theorem next_of_finished {l : Lexer} (h : l.step = .finished) : l.next = (.ok none, l) := by
  rw [next]
  split <;> simp_all

/-- Whatever `next` reports, there is less work after it, unless it found the end. -/
theorem next_work_lt {l : Lexer} (h : l.next.1 ≠ .ok none) : l.next.2.work < l.work := by
  induction l using next.induct with
  | case1 l t after hs =>
    rw [next_of_token hs]
    exact step_work_lt (by rw [hs]; rfl)
  | case2 l after hs ih =>
    rw [next_of_silent hs] at h ⊢
    exact Nat.lt_trans (ih h) (step_work_lt (by rw [hs]; rfl))
  | case3 l e after hs =>
    rw [next_of_fault hs]
    exact step_work_lt (by rw [hs]; rfl)
  | case4 l hs => exact absurd (by rw [next_of_finished hs]) h

end Lexer

/-! ## Whole texts -/

/-- What is read, as far as it can be read. -/
structure Lexed where
  /-- The tokens before the end or the first fault. -/
  tokens : List Token
  /-- The fault that stopped the reading, if one did. -/
  error : Option LexError
  /-- The place reached. -/
  stop : Position
deriving DecidableEq

/-- The tokens that `l` reads, after those in `read`. -/
def Lexer.collect (l : Lexer) (read : Array Token) : Lexed :=
  match _h : l.next with
  | (.ok (some t), after) => after.collect (read.push t)
  | (.ok none, after) => ⟨read.toList, none, after.position⟩
  | (.error e, after) => ⟨read.toList, some e, after.position⟩
termination_by l.work
decreasing_by
  have := Lexer.next_work_lt (l := l) (by simp [*])
  simpa [*] using this

namespace Lexer

/-- A token is added to those read before it. -/
theorem collect_of_next {l after : Lexer} {t : Token} (h : l.next = (.ok (some t), after))
    (read : Array Token) : l.collect read = after.collect (read.push t) := by
  rw [collect]
  split <;> simp_all

/-- At the end there is no fault to tell of. -/
theorem collect_of_end {l after : Lexer} (h : l.next = (.ok none, after)) (read : Array Token) :
    l.collect read = ⟨read.toList, none, after.position⟩ := by
  rw [collect]
  split <;> simp_all

/-- A fault is the last that is read. -/
theorem collect_of_error {l after : Lexer} {e : LexError} (h : l.next = (.error e, after))
    (read : Array Token) : l.collect read = ⟨read.toList, some e, after.position⟩ := by
  rw [collect]
  split <;> simp_all

end Lexer

end EntitySchema
