import EntitySchema.Parser
/-!
  All tokens first, then the parser.

  A parser takes a token of its source only when it has dealt with those before it, so it never sees what
  stands behind its first fault.  Reading all tokens beforehand and feeding them afterwards comes to the same:
  the tokens that are read are the same ones in the same order, and a fault of the lexer is only heard of once
  every token in front of it was taken.  With `ts` for the tokens of the source in front of a lexical fault
  `e?`, if there is one,

      feedSource from the start of the source  =  feedRead .start ts e?

  up to the tokens themselves, which `feedSource` hands out as well (`feedSource_eq`).  The induction is on
  the calls of the lexer, with what was `read` so far and the place of the last token carried along.

  `parse_eq_feedRead` is the form in which parsing is reasoned about from here on.
-/

namespace EntitySchema

namespace Parser

/-- The place of the last token that is no comment, or `place` if there is none. -/
def placeAfter (place : Position) (ts : List Token) : Position :=
  ts.foldl (fun place t => if t.isComment then place else t.position) place

/-- The parser after tokens that were read beforehand, and after what stands behind them: a fault, or the end
of the source. -/
def feedRead (host : HostTypes) (place : Position) (ts : List Token) (error : Option LexError)
    (p : Parser) : Except SourceError Parser :=
  match p.feedTokens host ts with
  | .error e => .error (.parse e)
  | .ok p =>
    match error with
    | some e => .error (.lexical e)
    | none =>
      match p.feedEnd host (placeAfter place ts) with
      | .error e => .error (.parse e)
      | .ok p => .ok p

section

variable {host : HostTypes} {s after : SourceLexer} {read : Array Token} {place : Position}
  {p q : Parser} {t : Token}

/-- A fault of the lexer is passed on. -/
theorem feedSource_of_error {e : LexError} (h : s.next = (.error e, after)) :
    p.feedSource host s read place = .error (.lexical e) := by
  rw [feedSource]
  split
  · next hn =>
    cases h.symm.trans hn
    rfl
  · next hn => cases h.symm.trans hn
  · next hn => cases h.symm.trans hn

/-- At the end of the source the parser is told of it. -/
theorem feedSource_of_end (h : s.next = (.ok none, after)) :
    p.feedSource host s read place =
      match p.feedEnd host place with
      | .error e => .error (.parse e)
      | .ok p => .ok (p, read.toList) := by
  rw [feedSource]
  split
  · next hn => cases h.symm.trans hn
  · rfl
  · next hn => cases h.symm.trans hn

/-- A token is fed to the parser, and then come the tokens behind it. -/
theorem feedSource_of_token (h : s.next = (.ok (some t), after)) :
    p.feedSource host s read place =
      match p.feedToken host t with
      | .error e => .error (.parse e)
      | .ok p => p.feedSource host after (read.push t) (placeAfter place [t]) := by
  rw [feedSource]
  split
  · next hn => cases h.symm.trans hn
  · next hn => cases h.symm.trans hn
  · next hn =>
    cases h.symm.trans hn
    rfl

end

/-- **Taking tokens one by one is taking them all at once.** -/
theorem feedSource_eq (host : HostTypes) (s : SourceLexer) (read : Array Token) (place : Position)
    (p : Parser) :
    ∃ ts, (s.collect read).tokens = read.toList ++ ts ∧
      p.feedSource host s read place =
        (p.feedRead host place ts (s.collect read).error).map fun q => (q, read.toList ++ ts) := by
  induction s, read using SourceLexer.collect.induct generalizing place p with
  | case1 s read t after hn ih =>
    rw [SourceLexer.collect_of_next hn, feedSource_of_token hn]
    cases hfed : p.feedToken host t with
    -- A parser that stops here has heard of no token behind.
    | error e =>
      obtain ⟨ts, htokens, -⟩ := ih place p
      refine ⟨t :: ts, by simpa using htokens, ?_⟩
      simp [feedRead, feedTokens, hfed, Except.map]
    | ok q =>
      obtain ⟨ts, htokens, hsource⟩ := ih (placeAfter place [t]) q
      refine ⟨t :: ts, by simpa using htokens, ?_⟩
      simp only [hsource, feedRead, feedTokens, hfed]
      simp [placeAfter]
  | case2 s read after hn =>
    rw [SourceLexer.collect_of_end hn, feedSource_of_end hn]
    refine ⟨[], by simp, ?_⟩
    simp only [feedRead, feedTokens, placeAfter, List.foldl_nil, List.append_nil]
    cases p.feedEnd host place <;> rfl
  | case3 s read e after hn =>
    rw [SourceLexer.collect_of_error hn, feedSource_of_error hn]
    exact ⟨[], by simp, rfl⟩

/-- The same for a whole source, where nothing was read before. -/
theorem feedSource_ofSource (host : HostTypes) (source : String) (p : Parser) :
    p.feedSource host (SourceLexer.ofSource source) #[] .start =
      (p.feedRead host .start (lex source).tokens (lex source).error).map
        fun q => (q, (lex source).tokens) := by
  obtain ⟨ts, htokens, hsource⟩ := feedSource_eq host (SourceLexer.ofSource source) #[] .start p
  obtain rfl : (lex source).tokens = ts := htokens
  exact hsource

end Parser

/-- A source is parsed as its tokens are. -/
theorem parse_eq_feedRead (host : HostTypes) (source : String) :
    parse host source =
      match Parser.start.feedRead host .start (lex source).tokens (lex source).error with
      | .error e => .error e
      | .ok p =>
        match p.checkFieldTypes host with
        | .error e => .error e
        | .ok _ => .ok (p.draft.finish (contentHash (lex source).tokens)) := by
  rw [parse, Parser.feedSource_ofSource]
  cases Parser.start.feedRead host .start (lex source).tokens (lex source).error <;> rfl

end EntitySchema
