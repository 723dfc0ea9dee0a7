import EntitySchema.Proofs.Parser.History
import EntitySchema.Proofs.Rerun
/-!
  A parser reads all of its source, or fails.

  A parser asks for one token at a time, passes over comments, and takes the end of the source for the end of
  a line in many places.  It could stop short, then, or miss a fault behind the last declaration.  It does
  neither.  Whatever it has read is what all tokens read beforehand come to (`parse_eq_feedRead`); it only
  succeeds at the end of the tokens, and it only hears of a fault in the text once it has taken all tokens in
  front of that fault.  A fault of its own it finds at one of these tokens (`exists_mem_of_feedTokens_error`).

  So there is one lemma for each answer that a parse can give:

  1. a protocol: the source has tokens, and the hash is that of all of them (`exists_tokens_of_parse`);

  2. a fault in the text: it is the fault of the tokens (`tokenize_eq_error_of_parse`);

  3. and where the text has a fault, it is reported, or a fault at one of the tokens in front of it
     (`parse_of_tokenize_error`).

  To put a canonical form into a file therefore no token is ever missing
  (`Validation.runIn_ne_unformattable`).

  Main statement: `parse_and_tokenize_agree`, the three answers and the last remark.
-/

namespace EntitySchema

namespace Parser

variable {host : HostTypes} {place : Position} {p q : Parser} {ts : List Token}
  {error : Option LexError}

/-- A parser finds a fault at a token that it was fed, and never at a comment. -/
theorem exists_mem_of_feedTokens_error {e : ParseError} (h : p.feedTokens host ts = .error e) :
    ∃ t ∈ ts, ¬ t.isComment ∧ e.position = t.position := by
  obtain ⟨front, t, mid, hread, ht, -, -, hplace⟩ := exists_of_feedTokens_error h
  have hmem : t ∈ p.upToFault host ts := by simp [hread]
  exact ⟨t, (upToFault_isPrefix host p ts).subset hmem, ht, hplace⟩

/-- A fault of the lexer is reported for what it is. -/
theorem eq_some_of_feedRead_lexical {e : LexError}
    (h : p.feedRead host place ts error = .error (.lexical e)) : error = some e := by
  unfold feedRead at h
  split at h
  · cases h
  split at h
  · cases h
    rfl
  · split at h
    · cases h
    · cases h

/-- Where the lexer has a fault, that is what is reported, unless the parser has one at a token before. -/
theorem feedRead_some (host : HostTypes) (place : Position) (ts : List Token) (e : LexError)
    (p : Parser) : p.feedRead host place ts (some e) = .error (.lexical e) ∨
      ∃ fault, ∃ t ∈ ts, ¬ t.isComment ∧
        p.feedRead host place ts (some e) = .error (.parse ⟨fault, t.position⟩) := by
  unfold feedRead
  cases hfed : p.feedTokens host ts with
  | ok q => exact Or.inl rfl
  | error e' =>
    obtain ⟨t, ht, hcomment, hplace⟩ := exists_mem_of_feedTokens_error hfed
    refine Or.inr ⟨e'.fault, t, ht, hcomment, ?_⟩
    rw [← hplace]

/-- No use of a type is a fault of the lexer. -/
theorem checkFieldTypes_ne_lexical (host : HostTypes) (p : Parser) (e : LexError) :
    p.checkFieldTypes host ≠ .error (.lexical e) := by
  unfold checkFieldTypes
  split
  · nofun
  · nofun

end Parser

variable {host : HostTypes} {source : String}

/-- The hash of a protocol is that of all tokens of its source. -/
theorem exists_tokens_of_parse {r : Protocol} (h : parse host source = .ok r) :
    ∃ ts, tokenize source = .ok ts ∧ r.hash = contentHash ts := by
  obtain ⟨ts, q, hts, -, -, rfl⟩ := Parser.parse_eq_ok_iff.1 h
  exact ⟨ts, hts, rfl⟩

/-- If a fault in the text is reported, that is the fault of its tokens. -/
theorem tokenize_eq_error_of_parse {e : LexError} (h : parse host source = .error (.lexical e)) :
    tokenize source = .error e := by
  rw [parse_eq_feedRead] at h
  split at h
  · next hread =>
    cases h
    exact tokenize_eq_error_iff_lex.2 (Parser.eq_some_of_feedRead_lexical hread)
  · split at h
    · next e' hcheck =>
      cases h
      exact absurd hcheck (Parser.checkFieldTypes_ne_lexical host _ e)
    · cases h

/-- A source with a fault is refused for that fault, or for what stands in front of it. -/
theorem parse_of_tokenize_error (host : HostTypes) {e : LexError} (h : tokenize source = .error e) :
    parse host source = .error (.lexical e) ∨
      ∃ fault, ∃ t ∈ (lex source).tokens, ¬ t.isComment ∧
        parse host source = .error (.parse ⟨fault, t.position⟩) := by
  rw [parse_eq_feedRead, tokenize_eq_error_iff_lex.1 h]
  rcases Parser.start.feedRead_some host .start (lex source).tokens e with
    hlexical | ⟨fault, t, ht, hcomment, hparse⟩
  · rw [hlexical]
    exact Or.inl rfl
  · rw [hparse]
    exact Or.inr ⟨fault, t, ht, hcomment, rfl⟩

namespace Validation

/-- A description that is a protocol has a canonical form. -/
theorem runIn_ne_unformattable (o : Options) (d : Directory) (e : LexError) :
    (runIn o d).1.result ≠ .error (.unformattable e) := by
  rw [runIn_eq_runOn, runOn_eq rfl]
  split
  · nofun
  split
  · nofun
  · next hparse =>
    obtain ⟨ts, hts, -⟩ := exists_tokens_of_parse hparse
    simp only [hts]
    split
    · split
      · nofun
      · nofun
    · nofun

end Validation

/-- Parsing a source and reading its tokens agree.  If it is read as a protocol, it has tokens, and the hash is
that of all of them.  If a fault in the text is reported, that is the fault of its tokens.  And if its tokens
have a fault, then that is reported, or a fault at a token that was read before it.  No run of the validator
finds that there is no canonical form to be written. -/
theorem parse_and_tokenize_agree (host : HostTypes) (source : String) :
    (∀ r, parse host source = .ok r → ∃ ts, tokenize source = .ok ts ∧ r.hash = contentHash ts) ∧
    (∀ e, parse host source = .error (.lexical e) → tokenize source = .error e) ∧
    (∀ e, tokenize source = .error e → parse host source = .error (.lexical e) ∨
      ∃ fault, ∃ t ∈ (lex source).tokens, ¬ t.isComment ∧
        parse host source = .error (.parse ⟨fault, t.position⟩)) ∧
    ∀ (o : Options) (d : Directory) (e : LexError),
      (Validation.runIn o d).1.result ≠ .error (.unformattable e) :=
  ⟨fun _ h => exists_tokens_of_parse h, fun _ h => tokenize_eq_error_of_parse h,
    fun _ h => parse_of_tokenize_error host h, Validation.runIn_ne_unformattable⟩

/-- A protocol, a fault in the text, and one behind a word that is no keyword. -/
theorem parse_and_tokenize_agree_name :
    (∃ r ts, parse HostTypes.empty "name x # c" = .ok r ∧ tokenize "name x # c" = .ok ts ∧
      r.hash = contentHash ts) ∧
    tokenize "name ?" = .error ⟨.strayChar '?', ⟨1, 6⟩⟩ ∧
    (∃ fault, ∃ t ∈ (lex "# c\nx ?").tokens, ¬ t.isComment ∧
      parse HostTypes.empty "# c\nx ?" = .error (.parse ⟨fault, t.position⟩)) := by
  obtain ⟨r, hr⟩ := exists_ok_of_isSome
    (show (parse HostTypes.empty "name x # c").toOption.isSome by decide +kernel)
  have hlexical : parse HostTypes.empty "name ?" = .error (.lexical ⟨.strayChar '?', ⟨1, 6⟩⟩) :=
    eq_error_of_map (show (parse HostTypes.empty "name ?").map Protocol.name = _ by decide +kernel)
  have hparse : parse HostTypes.empty "# c\nx ?" = .error (.parse ⟨.unknownKeyword "x", ⟨2, 1⟩⟩) :=
    eq_error_of_map (show (parse HostTypes.empty "# c\nx ?").map Protocol.name = _ by decide +kernel)
  obtain ⟨hname, -⟩ := parse_and_tokenize_agree HostTypes.empty "name x # c"
  obtain ⟨-, hstray, -⟩ := parse_and_tokenize_agree HostTypes.empty "name ?"
  obtain ⟨-, -, hword, -⟩ := parse_and_tokenize_agree HostTypes.empty "# c\nx ?"
  obtain ⟨ts, hts, hhash⟩ := hname r hr
  refine ⟨⟨r, ts, hr, hts, hhash⟩, hstray _ hlexical, ?_⟩
  refine (hword ⟨.strayChar '?', ⟨2, 3⟩⟩ (by decide +kernel)).resolve_left ?_
  rw [hparse]
  nofun

end EntitySchema
