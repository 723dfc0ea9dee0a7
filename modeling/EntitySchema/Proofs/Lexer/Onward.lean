import EntitySchema.Proofs.Lexer.Calls
import EntitySchema.Proofs.Lexer.Steps
/-!
  Reading on behind faults of the layout.

  What a lexer reports besides marks is a matter of the text and not of the layout: marks are read off line
  ends and margins, and whether a line is entered, passed over or refused, its words come next.  So a text
  says what it says by itself. `Says cs xs` cuts the text `cs` into separators, line ends with their margins,
  and the lexemes `xs`; no level and no scope is mentioned in it.  Its margins are even and without tabs,
  which leaves one fault that a lexer can still find: a line that is too deep.

  What is said is kept in step with what is reported.  Whatever a step does, what it reports and what the text
  behind it says are together what was said before:

  * `tokenStep`: a lexeme of the text is taken off the front of `xs`, and a mark takes nothing;
  * `silentStep`: nothing is taken;
  * `faultStep`: nothing is taken, since a line that is too deep is passed over up to its first word only.

  `Says.next` says so of a call and `says_afterCalls` of any number of calls, with `isWritten` to leave the
  marks out:

      xs = (reported n).filter isWritten ++ what the rest of the text says

  At the end the rest of the text is empty and says nothing, so by then all of `xs` was reported.

  Main statement: `SourceLexer.recovers_of_says`.
-/

namespace EntitySchema

/-- The lexeme stands in a text: it is no structural mark. -/
def Lexeme.isWritten (x : Lexeme) : Bool := x.isContent || x.isComment

namespace Lexer

/-! ## What a text says -/

/-- The text is a row of lexemes, with separators, line ends and even margins anywhere between them. -/
inductive Says : List Char → List Lexeme → Prop where
  /-- The empty text says nothing. -/
  | nothing : Says [] []
  /-- A blank, a tab or a comma is passed over. -/
  | separator {c : Char} {cs : List Char} {xs : List Lexeme} (hc : Scan.isSeparator c)
      (more : Says cs xs) : Says (c :: cs) xs
  /-- A newline and the margin of a line, which is even and as long as it can be. -/
  | line {level : Nat} {cs : List Char} {xs : List Lexeme} (hcs : ∀ c ∈ cs.head?, c ≠ ' ' ∧ c ≠ '\t')
      (more : Says cs xs) : Says ('\n' :: (List.replicate (2 * level) ' ' ++ cs)) xs
  /-- What a scan finds is said, and then what the scan has left. -/
  | lexeme {c : Char} {cs : List Char} {x : Lexeme} {xs : List Lexeme} (hc : c ≠ '\n')
      (hx : (Scan.ofChars c cs).result = .ok x) (more : Says (Scan.ofChars c cs).rest xs) :
      Says (c :: cs) (x :: xs)

namespace Says

variable {l after : Lexer} {c : Char} {cs : List Char} {xs : List Lexeme}

/-- The empty text says nothing. -/
theorem eq_nil (h : Says [] xs) : xs = [] := by
  cases h
  rfl

/-- A text says what it says behind a separator. -/
theorem of_separator (h : Says (c :: cs) xs) (hc : Scan.isSeparator c) : Says cs xs := by
  cases h with
  | separator _ more => exact more
  | line => exact absurd hc (by decide)
  | lexeme _ hx _ => exact absurd hc (by simp [Scan.isSeparator_eq_false_of_ok hx])

/-- Behind a newline there is an even margin without a tab. -/
theorem of_line {margin : Nat} {rest : List Char}
    (h : Says ('\n' :: (List.replicate margin ' ' ++ rest)) xs) (hrest : ∀ c ∈ rest.head?, c ≠ ' ') :
    margin % 2 = 0 ∧ (∀ c ∈ rest.head?, c ≠ '\t') ∧ Says rest xs := by
  generalize htext : '\n' :: (List.replicate margin ' ' ++ rest) = text at h
  cases h with
  | nothing => cases htext
  | separator hc =>
    cases htext
    exact absurd hc (by decide)
  | lexeme hc =>
    cases htext
    exact absurd rfl hc
  | @line level cs xs hcs more =>
    -- A margin goes as far as there are spaces, so the two are the same.
    have hsame : List.replicate margin ' ' ++ rest = List.replicate (2 * level) ' ' ++ cs :=
      (List.cons.inj htext).2
    obtain ⟨htake, hdrop⟩ := span_margin margin rest hrest
    obtain ⟨htake', hdrop'⟩ := span_margin (2 * level) cs fun c hc => (hcs c hc).1
    rw [hsame] at htake hdrop
    have hmargin : margin = 2 * level := by
      simpa using congrArg List.length (htake.symm.trans htake')
    obtain rfl : rest = cs := hdrop.symm.trans hdrop'
    exact ⟨by omega, fun c hc => (hcs c hc).2, more⟩

/-- What is no layout is the first of the lexemes. -/
theorem of_scan (h : Says (c :: cs) xs) (hc : c ≠ '\n') (hsep : ¬ Scan.isSeparator c) :
    ∃ x ys, xs = x :: ys ∧ (Scan.ofChars c cs).result = .ok x ∧ Says (Scan.ofChars c cs).rest ys := by
  cases h with
  | separator hc' => exact absurd hc' hsep
  | line => exact absurd rfl hc
  | lexeme _ hx more => exact ⟨_, _, rfl, hx, more⟩

/-! ## Steps -/

/-- A text says what it says on the line that is entered. -/
theorem of_lands {margin level : Nat} {rest : List Char} (h : Says l.rest xs)
    (hlands : l.Lands margin rest level) : Says rest xs := by
  obtain ⟨hrest, hline⟩ := hlands
  rw [hrest] at h
  refine (h.of_line ?_).2.2
  -- A line that is entered starts with no space.
  rcases hline with ⟨rfl, -⟩ | ⟨-, -, d, more, rfl, hd⟩
  · simp
  · simpa using hd.1

/-- What is passed over says nothing. -/
theorem silentStep (h : Says l.rest xs) (hs : l.SilentStep after) : Says after.rest xs := by
  cases hs with
  | separator _ hrest hc => exact (hrest ▸ h).of_separator hc
  | blank _ hrest hc =>
    rw [hrest] at h
    refine (h.of_line ?_).2.2
    rcases hc with rfl | rfl <;> simp
  | enters _ hlands => exact h.of_lands hlands

/-- A step that reports a lexeme of the text takes it off the front, and a mark takes nothing. -/
theorem tokenStep {t : Token} (h : Says l.rest xs) (hs : l.TokenStep t after) :
    ∃ ys, xs = [t.lexeme].filter Lexeme.isWritten ++ ys ∧ Says after.rest ys := by
  cases hs with
  | opens | closes | endsLast | closesLast => exact ⟨xs, rfl, h⟩
  | ends _ hlands => exact ⟨xs, rfl, h.of_lands hlands⟩
  | @scans c cs x _ hrest hc hx =>
    rw [hrest] at h
    obtain ⟨y, ys, rfl, hy, hmore⟩ := h.of_scan hc (by simp [Scan.isSeparator_eq_false_of_ok hx])
    cases hx.symm.trans hy
    have hwritten : x.isWritten := by
      simpa [Lexeme.isWritten] using Scan.isContent_or_isComment_of_ok hx
    exact ⟨ys, by simp [hwritten], hmore⟩

/-- The one fault is a line that is too deep, and its words are still to come. -/
theorem faultStep {e : LexError} (h : Says l.rest xs) (hs : l.FaultStep e after) :
    (∃ allowed found, e.fault = .deepIndent allowed found) ∧ Says after.rest xs := by
  cases hs with
  | tab _ hrest =>
    rw [hrest] at h
    exact absurd rfl ((h.of_line (by simp)).2.1 '\t' rfl)
  | odd _ hrest hc hodd =>
    rw [hrest] at h
    exact absurd (h.of_line (by simpa using hc.1)).1 hodd
  | deep _ hrest hc =>
    rw [hrest] at h
    exact ⟨⟨_, _, rfl⟩, (h.of_line (by simpa using hc.1)).2.2⟩
  | scans _ hrest hc hsep hx =>
    rw [hrest] at h
    obtain ⟨y, ys, -, hy, -⟩ := h.of_scan hc hsep
    cases hx.symm.trans hy

/-! ## Calls -/

/-- A call reports the first lexeme that is said, or something else and then it is still to come; and its
fault, if it finds one, is a line that is too deep. -/
theorem next (h : Says l.rest xs) :
    (∃ ys, xs = (l.next.1.toOption.join.map (·.lexeme)).toList.filter Lexeme.isWritten ++ ys ∧
      Says l.next.2.rest ys) ∧
    ∀ e, l.next.1 = .error e → ∃ allowed found, e.fault = .deepIndent allowed found := by
  induction l using next.induct with
  | case1 l t after hs =>
    rw [next_of_token hs]
    exact ⟨h.tokenStep (tokenStep_of_step hs), fun e he => by cases he⟩
  | case2 l after hs ih =>
    rw [next_of_silent hs]
    exact ih (h.silentStep (silentStep_of_step hs))
  | case3 l e after hs =>
    rw [next_of_fault hs]
    obtain ⟨hdeep, hmore⟩ := h.faultStep (faultStep_of_step hs)
    refine ⟨⟨xs, rfl, hmore⟩, fun e' he => ?_⟩
    cases he
    exact hdeep
  | case4 l hs =>
    rw [next_of_finished hs]
    exact ⟨⟨xs, rfl, h⟩, fun e he => by cases he⟩

end Says

end Lexer

/-! ## Calls on a source -/

namespace SourceLexer

variable {s : SourceLexer} {xs : List Lexeme}

/-- What `n` calls have reported, the marks left out, and what the text behind them says are together `xs`. -/
theorem says_afterCalls (h : Lexer.Says s.onText.rest xs) (n : Nat) :
    ∃ ys, xs = (s.reported n).filter Lexeme.isWritten ++ ys ∧ Lexer.Says (s.afterCalls n).onText.rest ys := by
  induction n with
  | zero => exact ⟨xs, rfl, h⟩
  | succ n ih =>
    obtain ⟨ys, hys, hmid⟩ := ih
    -- Call `n` takes one lexeme more off the front, or none.
    obtain ⟨zs, rfl, hmore⟩ := hmid.next.1
    rw [next_onText] at hmore
    refine ⟨zs, ?_, hmore⟩
    rw [hys, reported_succ, List.filter_append, List.append_assoc, next_onText]
    rfl

/-- However often it is asked, and whatever it finds wrong with the layout, the lexer `s` reports the lexemes
`xs` between its marks, all of them by the time it comes to its end. -/
structure Recovers (s : SourceLexer) (xs : List Lexeme) : Prop where
  /-- Some call answers that the source is at its end. -/
  ends : ∃ n, s.answer n = .ok none
  /-- The first `n` calls report the first of `xs`, besides marks. -/
  so_far : ∀ n, (s.reported n).filter Lexeme.isWritten <+: xs
  /-- At the end all of `xs` were reported. -/
  complete : ∀ n, s.answer n = .ok none → (s.reported n).filter Lexeme.isWritten = xs
  /-- A fault on the way is a line that is too deep. -/
  faults : ∀ n e, s.answer n = .error e → ∃ allowed found, e.fault = .deepIndent allowed found

/-- A lexer recovers what the text of its source says. -/
theorem recovers_of_says (h : Lexer.Says s.onText.rest xs) : s.Recovers xs where
  ends := by
    obtain ⟨n, -, hend⟩ := s.exists_answer_none
    exact ⟨n, hend⟩
  so_far n := by
    obtain ⟨ys, hys, -⟩ := says_afterCalls h n
    exact ⟨ys, hys.symm⟩
  complete n hend := by
    obtain ⟨ys, hys, hmore⟩ := says_afterCalls h (n + 1)
    rw [(Lexer.rest_and_depth_of_finished (step_of_answer_none hend (Nat.le_refl n))).1] at hmore
    rw [hys, hmore.eq_nil, reported_succ, hend]
    simp [Except.toOption]
  faults n e he := by
    obtain ⟨ys, -, hmore⟩ := says_afterCalls h n
    refine hmore.next.2 e ?_
    rw [next_onText]
    exact he

end SourceLexer

end EntitySchema
