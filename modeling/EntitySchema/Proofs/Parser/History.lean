import EntitySchema.Proofs.Parser.Batch
import Mathlib.Data.List.Induction
/-!
  What was read when parsing stops.

  A token is read only once the parser has taken all those in front of it.  `history` is what was read of a
  source when parsing comes to its end or to a fault, comments included.  Of all tokens that is the part up to
  the first one with a fault of the parser:

      history host source = upToFault of the tokens of the source      (`history_eq`)
      history host source <+: the tokens of the source                 (`history_isPrefix`)

  Where parsing comes to the end, it is all that the hash is taken of (`readSource_of_feedSource`).

  A parser finds a fault at one of three moments (`Stops`): at a token, at the end of the source, or when it
  looks at the types of fields.  At the first the history ends with that token; at the other two it has all
  tokens, and there is no fault in the text.  `stops_of_parse_error` says that there is no other moment.

  What holds along a parse is proved by induction on the tokens that were taken, which can be done without
  looking at comments (`feedTokens_induction`): `P` is shown of nothing and the parser at the start, and of
  one token more that is fed.
-/

namespace EntitySchema

namespace Parser

/-- The tokens that are read before parsing stops: those in `read`, and those that are read on the way. -/
def readSource (host : HostTypes) (s : SourceLexer) (read : Array Token) (p : Parser) : List Token :=
  match _h : s.next with
  | (.error _, _) => read.toList
  | (.ok none, _) => read.toList
  | (.ok (some t), after) =>
    match p.feedToken host t with
    | .error _ => (read.push t).toList
    | .ok p => p.readSource host after (read.push t)
termination_by s.onText.work
decreasing_by exact SourceLexer.work_of_next_lt _h

/-- The tokens up to the first one that the parser does not take. -/
def upToFault (host : HostTypes) (p : Parser) : List Token → List Token
  | [] => []
  | t :: ts =>
    match p.feedToken host t with
    | .ok p => t :: p.upToFault host ts
    | .error _ => [t]

end Parser

/-- The tokens of a source that have been read when parsing it stops. -/
def history (host : HostTypes) (source : String) : List Token :=
  Parser.start.readSource host (SourceLexer.ofSource source) #[]

namespace Parser

variable {host : HostTypes} {place : Position} {p q mid : Parser} {t : Token} {ts us : List Token}

/-! ## Tokens that were read -/

/-- Reading one by one stops where reading everything beforehand does. -/
theorem readSource_eq (host : HostTypes) (s : SourceLexer) (read : Array Token) (p : Parser) :
    ∃ ts, (s.collect read).tokens = read.toList ++ ts ∧
      p.readSource host s read = read.toList ++ p.upToFault host ts := by
  induction s, read using SourceLexer.collect.induct generalizing p with
  | case1 s read t after hn ih =>
    rw [SourceLexer.collect_of_next hn]
    -- The next token is read whatever becomes of it.
    have hread : p.readSource host s read = match p.feedToken host t with
        | .error _ => (read.push t).toList
        | .ok p => p.readSource host after (read.push t) := by
      rw [readSource]
      split <;> simp_all
    cases hfed : p.feedToken host t with
    | error e =>
      obtain ⟨ts, htokens, -⟩ := ih p
      refine ⟨t :: ts, by simpa using htokens, ?_⟩
      rw [hread, hfed, upToFault, hfed, Array.toList_push]
    | ok q =>
      obtain ⟨ts, htokens, hsource⟩ := ih q
      refine ⟨t :: ts, by simpa using htokens, ?_⟩
      rw [hread, hfed, upToFault, hfed]
      simpa using hsource
  | case2 s read after hn =>
    rw [SourceLexer.collect_of_end hn]
    refine ⟨[], by simp, ?_⟩
    rw [readSource]
    split <;> simp_all [upToFault]
  | case3 s read e after hn =>
    rw [SourceLexer.collect_of_error hn]
    refine ⟨[], by simp, ?_⟩
    rw [readSource]
    split <;> simp_all [upToFault]

/-- What is read before a fault is a prefix of the tokens. -/
theorem upToFault_isPrefix (host : HostTypes) (p : Parser) (ts : List Token) :
    p.upToFault host ts <+: ts := by
  induction ts generalizing p with
  | nil => exact List.prefix_refl _
  | cons t ts ih =>
    rw [upToFault]
    split
    · exact List.cons_prefix_cons.2 ⟨rfl, ih _⟩
    · exact ⟨ts, rfl⟩

/-! ## Tokens that were taken -/

/-- Tokens are taken one part after the other. -/
theorem feedTokens_append : p.feedTokens host (ts ++ us) = .ok q ↔
    ∃ mid, p.feedTokens host ts = .ok mid ∧ mid.feedTokens host us = .ok q := by
  induction ts generalizing p with
  | nil => simp [feedTokens]
  | cons t ts ih =>
    rw [List.cons_append, feedTokens, feedTokens]
    cases p.feedToken host t with
    | ok mid => exact ih
    | error e => simp

/-- To take one token is to be fed it. -/
theorem feedTokens_singleton : p.feedTokens host [t] = .ok q ↔ p.feedToken host t = .ok q := by
  rw [feedTokens]
  cases p.feedToken host t <;> simp [feedTokens]

/-- A comment leaves a parser as it is. -/
theorem feedToken_of_isComment (h : t.isComment) : p.feedToken host t = .ok p := by
  rw [feedToken, if_pos h]

/-- Any other token is its lexeme at its place. -/
theorem feedToken_eq_ok_iff (h : ¬ t.isComment) :
    p.feedToken host t = .ok q ↔ p.feed host t.position (some t.lexeme) = .ok q := by
  rw [feedToken, if_neg h]
  cases p.feed host t.position (some t.lexeme) <;> simp

/-- Where all tokens are taken all of them are read. -/
theorem upToFault_of_feedTokens (h : p.feedTokens host ts = .ok q) : p.upToFault host ts = ts := by
  induction ts generalizing p with
  | nil => rfl
  | cons t ts ih =>
    cases hfed : p.feedToken host t with
    | ok mid =>
      rw [feedTokens, hfed] at h
      rw [upToFault, hfed]
      exact congrArg (t :: ·) (ih h)
    | error e =>
      rw [feedTokens, hfed] at h
      cases h

/-- Where parsing comes to the end of a source, what was read is all that the hash is taken of. -/
theorem readSource_of_feedSource {s : SourceLexer} {read : Array Token}
    (h : p.feedSource host s read place = .ok (q, ts)) : p.readSource host s read = ts := by
  obtain ⟨us, htokens, hsource⟩ := feedSource_eq host s read place p
  obtain ⟨us', htokens', hread⟩ := readSource_eq host s read p
  obtain rfl : us = us' := List.append_cancel_left (htokens.symm.trans htokens')
  rw [hsource] at h
  unfold feedRead at h
  split at h
  · cases h
  next hfed =>
  rw [hread, upToFault_of_feedTokens hfed]
  split at h
  · cases h
  split at h
  · cases h
  · cases h
    rfl

/-- A parser finds a fault at a token that it was fed, once it has taken those in front of it. -/
theorem exists_of_feedTokens_error {e : ParseError} (h : p.feedTokens host ts = .error e) :
    ∃ front t mid, p.upToFault host ts = front ++ [t] ∧ ¬ t.isComment ∧
      p.feedTokens host front = .ok mid ∧ mid.feed host t.position (some t.lexeme) = .error e.fault ∧
      e.position = t.position := by
  induction ts generalizing p with
  | nil => cases h
  | cons t ts ih =>
    cases hfed : p.feedToken host t with
    | ok q =>
      rw [feedTokens, hfed] at h
      obtain ⟨front, u, mid, hread, hu, hfront, hfault, hplace⟩ := ih h
      refine ⟨t :: front, u, mid, ?_, hu, ?_, hfault, hplace⟩
      · rw [upToFault, hfed]
        exact congrArg (t :: ·) hread
      · rw [feedTokens, hfed]
        exact hfront
    | error e' =>
      rw [feedTokens, hfed] at h
      cases h
      -- This is the first token that is not taken, so nothing was taken in front of it here.
      refine ⟨[], t, p, by rw [upToFault, hfed]; rfl, ?_⟩
      rw [feedToken] at hfed
      split at hfed
      · cases hfed
      · next ht =>
        split at hfed
        · cases hfed
        · next fault hfault =>
          cases hfed
          exact ⟨ht, rfl, hfault, rfl⟩

/-- What holds at the start, and holds after a token if it held before it, holds whenever a parser has taken
some tokens.  Comments do not count. -/
theorem feedTokens_induction {P : List Token → Parser → Prop} (hnil : P [] p)
    (hstep : ∀ ts t mid next, p.feedTokens host ts = .ok mid → P (Token.withoutComments ts) mid →
      mid.feed host t.position (some t.lexeme) = .ok next → P (Token.withoutComments ts ++ [t]) next)
    (h : p.feedTokens host ts = .ok q) : P (Token.withoutComments ts) q := by
  -- The last token is taken off, so that a parser comes with all that it was fed.
  induction ts using List.reverseRecOn generalizing q with
  | nil =>
    cases h
    exact hnil
  | append_singleton ts t ih =>
    obtain ⟨mid, hmid, hlast⟩ := feedTokens_append.1 h
    have hlast := feedTokens_singleton.1 hlast
    by_cases ht : t.isComment
    · cases (feedToken_of_isComment ht).symm.trans hlast
      simpa [Token.withoutComments, ht] using ih hmid
    · have hnext := hstep ts t mid q hmid (ih hmid) ((feedToken_eq_ok_iff ht).1 hlast)
      simpa [Token.withoutComments, ht] using hnext

/-- The place behind which a source ends is that of its last token that is no comment. -/
theorem placeAfter_eq (place : Position) (ts : List Token) :
    placeAfter place ts = ((Token.withoutComments ts).getLast?.map (·.position)).getD place := by
  induction ts using List.reverseRecOn with
  | nil => rfl
  | append_singleton ts t ih =>
    have hlast : placeAfter place (ts ++ [t]) =
        if t.isComment then placeAfter place ts else t.position := by
      simp [placeAfter]
    rw [hlast, ih]
    by_cases ht : t.isComment
    · simp [Token.withoutComments, ht]
    · simp [Token.withoutComments, ht]

end Parser

/-! ## Whole sources -/

/-- What was read is the part of the tokens up to the first one with a fault of the parser. -/
theorem history_eq (host : HostTypes) (source : String) :
    history host source = Parser.start.upToFault host (lex source).tokens := by
  obtain ⟨ts, htokens, hread⟩ := Parser.readSource_eq host (SourceLexer.ofSource source) #[] .start
  obtain rfl : (lex source).tokens = ts := htokens
  exact hread

/-- What was read is a prefix of the tokens. -/
theorem history_isPrefix (host : HostTypes) (source : String) :
    history host source <+: (lex source).tokens := by
  rw [history_eq]
  exact Parser.upToFault_isPrefix _ _ _

/-- The moments at which parsing a source stops with a fault of the parser. -/
inductive Parser.Stops (host : HostTypes) (source : String) : ParseError → Prop where
  /-- The parser takes some tokens, and not the next one. -/
  | atToken {front : List Token} {t : Token} {p : Parser} {fault : ParseFault}
      (hread : history host source = front ++ [t]) (ht : ¬ t.isComment)
      (htaken : start.feedTokens host front = .ok p)
      (hfault : p.feed host t.position (some t.lexeme) = .error fault) :
      Stops host source ⟨fault, t.position⟩
  /-- The parser takes all tokens, but not the end of the source. -/
  | atEnd {ts : List Token} {p : Parser} {e : ParseError} (hts : tokenize source = .ok ts)
      (hread : history host source = ts) (htaken : start.feedTokens host ts = .ok p)
      (hfault : p.feedEnd host (placeAfter .start ts) = .error e) : Stops host source e
  /-- The parser takes everything, and there is a field with a type that is not known. -/
  | atType {ts : List Token} {p q : Parser} {u : FieldUse} (hts : tokenize source = .ok ts)
      (hread : history host source = ts) (htaken : start.feedTokens host ts = .ok p)
      (hend : p.feedEnd host (placeAfter .start ts) = .ok q) (hfault : q.unknownUse? host = some u) :
      Stops host source ⟨.unknownFieldType u.typeName u.component, u.position⟩

/-- Parsing that fails has stopped at one of these moments. -/
theorem Parser.stops_of_parse_error {host : HostTypes} {source : String} {e : ParseError}
    (h : parse host source = .error (.parse e)) : Stops host source e := by
  rw [parse_eq_feedRead] at h
  have hread := history_eq host source
  -- The tokens come first, then their own fault, then the end of the source, and last the types.
  cases hfed : start.feedTokens host (lex source).tokens with
  | error e' =>
    obtain ⟨front, t, p, hfront, ht, htaken, hfault, hplace⟩ := exists_of_feedTokens_error hfed
    simp only [feedRead, hfed] at h
    cases h
    have hstop : e = ⟨e.fault, t.position⟩ := by rw [← hplace]
    rw [hstop]
    exact .atToken (hread.trans hfront) ht htaken hfault
  | ok p =>
    rw [upToFault_of_feedTokens hfed] at hread
    cases herror : (lex source).error with
    | some e' =>
      simp only [feedRead, hfed, herror] at h
      cases h
    | none =>
      have hts : tokenize source = .ok (lex source).tokens := tokenize_eq_ok_iff_lex.2 ⟨herror, rfl⟩
      cases hend : p.feedEnd host (placeAfter .start (lex source).tokens) with
      | error e' =>
        simp only [feedRead, hfed, herror, hend] at h
        cases h
        exact .atEnd hts hread hfed hend
      | ok q =>
        simp only [feedRead, hfed, herror, hend, checkFieldTypes] at h
        cases hunknown : q.unknownUse? host with
        | none =>
          rw [hunknown] at h
          cases h
        | some u =>
          rw [hunknown] at h
          cases h
          exact .atType hts hread hfed hend hunknown

end EntitySchema
