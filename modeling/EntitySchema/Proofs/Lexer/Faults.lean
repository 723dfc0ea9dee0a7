import EntitySchema.Proofs.Edits.FinalNewline
/-!
  What a lexical fault says of its text.

  A fault names a place and a cause, and every kind of fault has a place of its own: the tab in a margin, the
  start of a line, the end of its margin, or the first character of what should have been a lexeme.  Some are
  placed before the lexer moves on and some after it, and whatever was read before, other faults excepted, can
  be a comment, a blank line or a string over several lines.

  `Tells xs front rest fault` says that `fault` is to be seen at the place between `front` and `rest`, where
  the lexemes `xs` were reported before.  With spaces written as `_` and `⟨c⟩` for a character that starts a
  line of content,

  * `badIndent`: `front` is `… newline _ … _` and `rest` is `tab …`;
  * `oddIndent n`: `front` is `… newline` and `rest` is `_ … _ ⟨c⟩ …` with an odd number `n` of spaces;
  * `deepIndent a n`: `front` is `… newline _ … _` with `2 * n` spaces, `rest` is `⟨c⟩ …`, and `a < n` where
    `a` is one more than the number of scopes that are open in `xs`;
  * `unclosedString`, `missingDigits`, `outOfRange`, `strayChar`: `rest` starts with what could not be read.

  The text in front of the place is what the lexer has passed, and the scopes are those it has reported
  (`Consistent`), so both are known along a run.  What a single step adds is `FaultStep.exists_tells`: `more`
  is the part of the text that the step passes before it is stopped.

  Main statement: `tokenize_error_tells`.
-/

namespace EntitySchema

/-- A text shows the fault at a place between `front` and `rest`, where the lexemes `xs` were reported
before. -/
inductive LexFault.Tells (xs : List Lexeme) : List Char → List Char → LexFault → Prop where
  /-- A tab, with nothing but spaces between it and the newline before it. -/
  | badIndent {above more : List Char} {margin : Nat} :
      Tells xs (above ++ '\n' :: List.replicate margin ' ') ('\t' :: more) (.badIndent '\t')
  /-- A line that starts with just so many spaces, an odd number, and goes on with content. -/
  | oddIndent {above more : List Char} {margin : Nat} {c : Char} (hodd : margin % 2 = 1)
      (hc : Lexer.StartsLine c) :
      Tells xs (above ++ ['\n']) (List.replicate margin ' ' ++ c :: more) (.oddIndent margin)
  /-- Content behind just so many spaces, two for each level, and deeper than one level below the scopes that
  are open. -/
  | deepIndent {above more : List Char} {allowed found : Nat} {c : Char} (hc : Lexer.StartsLine c)
      (hallowed : allowed + xs.count .closeScope = xs.count .openScope + 1) (hdeep : allowed < found) :
      Tells xs (above ++ '\n' :: List.replicate (2 * found) ' ') (c :: more) (.deepIndent allowed found)
  /-- A quote that does not occur again. -/
  | unclosedString {front more : List Char} {quote : Char} (hquote : Scan.isQuote quote)
      (hfree : quote ∉ more) : Tells xs front (quote :: more) .unclosedString
  /-- A minus sign without a digit directly behind it. -/
  | missingDigits {front more : List Char} (hmore : ∀ d ∈ more.head?, ¬ d.isDigit) :
      Tells xs front ('-' :: more) .missingDigits
  /-- All digits that stand here, with a value beyond 64 bits. -/
  | outOfRange {front digits more : List Char} (hne : digits ≠ []) (hdigits : ∀ d ∈ digits, d.isDigit)
      (hmore : ∀ d ∈ more.head?, ¬ d.isDigit)
      (hrange : ¬ Integer.InRange (Integer.digitsValue digits)) :
      Tells xs front (digits ++ more) (.outOfRange (String.ofList digits))
  /-- A minus sign and all digits behind it, with a value beyond 64 bits. -/
  | negativeOutOfRange {front digits more : List Char} (hne : digits ≠ [])
      (hdigits : ∀ d ∈ digits, d.isDigit) (hmore : ∀ d ∈ more.head?, ¬ d.isDigit)
      (hrange : ¬ Integer.InRange (-(Integer.digitsValue digits : Int))) :
      Tells xs front ('-' :: digits ++ more) (.outOfRange (String.ofList ('-' :: digits)))
  /-- A character that is no layout and starts no lexeme. -/
  | strayChar {front more : List Char} {c : Char} (hlayout : ¬ Scan.isLayout c) (hword : ¬ c.isAlphanum)
      (hsign : c ≠ '#' ∧ c ≠ '-') (hquote : ¬ Scan.isQuote c) (hmark : c ≠ '[' ∧ c ≠ ']' ∧ c ≠ '.') :
      Tells xs front (c :: more) (.strayChar c)

/-- An odd margin is told of at the start of a line. -/
theorem LexFault.Tells.exists_newline {xs : List Lexeme} {front rest : List Char} {spaces : Nat}
    (h : LexFault.Tells xs front rest (.oddIndent spaces)) : ∃ above, front = above ++ ['\n'] := by
  cases h with
  | oddIndent => exact ⟨_, rfl⟩

/-- Right behind a newline is the first place of a line that is not the first one. -/
theorem Position.behind_newline (above : List Char) :
    behind (above ++ ['\n']) = ⟨above.count '\n' + 2, 1⟩ := by
  simp [behind]

namespace Scan

variable {c : Char} {cs front : List Char} {xs : List Lexeme} {fault : LexFault}

/-- A number that is at fault has no digits, or too large a value. -/
theorem tells_of_number (hc : c.isDigit ∨ c = '-') (h : (number c cs).result = .error fault) :
    fault.Tells xs front (c :: cs) := by
  have hdigits : ∀ d ∈ cs.takeWhile Char.isDigit, d.isDigit := fun d hd => List.mem_takeWhile_imp hd
  have hmore : ∀ d ∈ (cs.dropWhile Char.isDigit).head?, ¬ d.isDigit := by
    intro d hd
    simp [head?_dropWhile Char.isDigit cs d hd]
  have hsplit : cs.takeWhile Char.isDigit ++ cs.dropWhile Char.isDigit = cs :=
    List.takeWhile_append_dropWhile
  simp only [number] at h
  -- From here on the digits and what stands behind them are any two parts of the text.
  generalize cs.takeWhile Char.isDigit = digits at h hdigits hsplit
  generalize cs.dropWhile Char.isDigit = more at hmore hsplit
  subst hsplit
  unfold numberOf at h
  split at h
  · next hnone =>
    obtain ⟨rfl, rfl⟩ := hnone
    cases h
    exact .missingDigits hmore
  next hsome =>
  split at h
  · cases h
  next hnone =>
  cases h
  -- The sign of the number says which of the two bounds it misses.
  rcases hc with hc | rfl
  · have hall : ∀ d ∈ c :: digits, d.isDigit := by simpa [hc] using hdigits
    rw [Integer.read?_of_digits (List.cons_ne_nil c digits) (by simpa using hall)] at hnone
    exact .outOfRange (List.cons_ne_nil c digits) hall hmore (by simpa using hnone)
  · have hne : digits ≠ [] := fun hnil => hsome ⟨rfl, hnil⟩
    rw [Integer.read?_of_minus hne (by simpa using hdigits)] at hnone
    exact .negativeOutOfRange hne hdigits hmore (by simpa using hnone)

/-- Where a scan fails the text shows why. -/
theorem tells_of_error (hc : c ≠ '\n') (hsep : ¬ isSeparator c)
    (h : (ofChars c cs).result = .error fault) : fault.Tells xs front (c :: cs) := by
  unfold ofChars at h
  split at h
  · cases h
  next hsign =>
  split at h
  · cases h
  next halpha =>
  split at h
  · next hnumber => exact tells_of_number (by simpa using hnumber) h
  next hnumber =>
  simp only [Bool.or_eq_true, decide_eq_true_eq, not_or] at hnumber
  split at h
  · next hquote =>
    have hfree := not_mem_of_string_error h
    unfold string at h
    simp only at h
    split at h
    · cases h
      exact .unclosedString hquote hfree
    · cases h
  next hquote =>
  simp only [single, singleOf] at h
  split at h
  · cases h
  split at h
  · cases h
  split at h
  · cases h
  next hopen hclose hdot =>
  cases h
  exact .strayChar (by simp [isLayout, hsep, hc]) (by simp [Char.isAlphanum, halpha, hnumber.1])
    ⟨hsign, hnumber.2⟩ hquote ⟨hopen, hclose, hdot⟩

end Scan

namespace Lexer

variable {l after : Lexer} {e : LexError} {xs : List Lexeme} {front : List Char}

/-- A step that finds a fault tells the truth.  If `front` was passed and `xs` was reported, then the fault is
to be seen behind `front ++ more`, where `more` is the newline and the margin that the step has passed, or
nothing. -/
theorem FaultStep.exists_tells (h : l.FaultStep e after) (hplace : l.position = Position.behind front)
    (hdepth : l.depth + xs.count .closeScope = xs.count .openScope) :
    ∃ more rest, l.rest = more ++ rest ∧ e.position = Position.behind (front ++ more) ∧
      e.fault.Tells xs (front ++ more) rest := by
  cases h with
  | tab hat hrest =>
    refine ⟨_, _, hrest, ?_, .badIndent⟩
    rw [← Position.advanceAll_behind, ← hplace]
    rfl
  -- The place is behind the newline, before the margin.
  | @odd margin c more hat hrest hc hodd =>
    refine ⟨['\n'], _, hrest, ?_, .oddIndent (by omega) hc⟩
    rw [← Position.advanceAll_behind, ← hplace]
    rfl
  | deep hat hrest hc hdeep =>
    refine ⟨_, _, hrest, ?_, .deepIndent hc (by omega) hdeep⟩
    rw [← Position.advanceAll_behind, ← hplace]
    rfl
  -- Nothing is passed: the place is where the lexer stands.
  | scans hat hrest hc hsep hx =>
    refine ⟨[], _, hrest, ?_, Scan.tells_of_error hc hsep hx⟩
    rw [List.append_nil, hplace]

end Lexer

/-- Lexical faults tell the truth.  If reading `source` stops at the fault `e`, then its text, without a
byte-order mark in front and without carriage returns, is `front ++ rest` where `e` is placed between the two,
and `Tells` says what is to be seen there.  The place of an odd margin is the first one of a line, and not of
the first line. -/
theorem tokenize_error_tells {source : String} {e : LexError} (h : tokenize source = .error e) :
    ∃ front rest, SourceText.visible source.toList = front ++ rest ∧
      e.position = Position.behind front ∧
      e.fault.Tells ((lex source).tokens.map (·.lexeme)) front rest ∧
      ∀ spaces, e.fault = .oddIndent spaces → e.position.column = 1 ∧ 1 < e.position.line := by
  obtain ⟨ts, last, after, hreads, hstep⟩ := Lexer.tokenize_eq_error_iff.1 h
  have htokens : (lex source).tokens = ts := by
    rw [lex_eq_collect, Lexer.collect_of_reads_fault hreads hstep]
    rfl
  obtain ⟨front, hpasses⟩ := hreads.exists_passes
  have hstart : (Lexer.ofSource source).position = Position.behind [] := rfl
  have hlast : last.position = Position.behind front := hpasses.position_eq hstart
  -- The scopes that are open follow from what was reported.
  have hdepth := ((Lexer.consistent_ofSource source).reads hreads).depth_eq
  obtain ⟨more, rest, hrest, hplace, htells⟩ :=
    (Lexer.faultStep_of_step hstep).exists_tells hlast hdepth
  refine ⟨front ++ more, rest, ?_, hplace, htokens ▸ htells, ?_⟩
  · rw [List.append_assoc, ← hrest]
    exact hpasses.1
  · intro spaces hodd
    rw [hodd] at htells
    obtain ⟨above, habove⟩ := htells.exists_newline
    rw [hplace, habove, Position.behind_newline]
    exact ⟨rfl, by show 1 < above.count '\n' + 2; omega⟩

/-- Behind a mark, a carriage return, a comment and a blank line, four levels where two may be open; and the
character zero, behind a string over two lines. -/
theorem tokenize_error_tells_deep_stray :
    (∃ front rest, SourceText.visible "\ufeffa\r\n  b # c\n\n        d".toList = front ++ rest ∧
        (⟨4, 9⟩ : Position) = Position.behind front ∧
        (LexFault.deepIndent 2 4).Tells [.symbol "a", .openScope, .symbol "b", .comment "c"] front rest) ∧
      ∃ front rest, SourceText.visible "'x\ny'\n\x00".toList = front ++ rest ∧
        (⟨3, 1⟩ : Position) = Position.behind front ∧
        (LexFault.strayChar '\x00').Tells [.string "x\ny", .endLine] front rest := by
  have hdeep : tokenize "\ufeffa\r\n  b # c\n\n        d" = .error ⟨.deepIndent 2 4, ⟨4, 9⟩⟩ := by
    decide +kernel
  have hdeepTokens : (lex "\ufeffa\r\n  b # c\n\n        d").tokens.map (·.lexeme) =
      [.symbol "a", .openScope, .symbol "b", .comment "c"] := by
    decide +kernel
  have hstray : tokenize "'x\ny'\n\x00" = .error ⟨.strayChar '\x00', ⟨3, 1⟩⟩ := by decide +kernel
  have hstrayTokens : (lex "'x\ny'\n\x00").tokens.map (·.lexeme) = [.string "x\ny", .endLine] := by
    decide +kernel
  constructor
  · obtain ⟨front, rest, htext, hplace, htells, -⟩ := tokenize_error_tells hdeep
    exact ⟨front, rest, htext, hplace, hdeepTokens ▸ htells⟩
  · obtain ⟨front, rest, htext, hplace, htells, -⟩ := tokenize_error_tells hstray
    exact ⟨front, rest, htext, hplace, hstrayTokens ▸ htells⟩

end EntitySchema
