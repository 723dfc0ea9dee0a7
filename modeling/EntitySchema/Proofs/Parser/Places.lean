import EntitySchema.Proofs.Parser.Batch
/-!
  A parser without the places of its tokens.

  A parser remembers where the types of fields are written, for messages about unknown ones.  No decision
  looks at a place. So `p.unplaced`, the parser `p` with all its places set to the start of the text, takes
  the same steps:

      p.unplaced.feed host .start found = (p.feed host place found).map unplaced      (`feed_unplaced`)

  Below it stands one lemma for each part of a step and each function that a step uses, all of this shape.
  What a source is read as is then a matter of its lexemes without comments (`Token.meaning`): `feedLexemes`
  reads such lexemes, and `Completes host p xs q` says that `p` is fed them and the end of the source and
  comes to `q`.

  The end is told twice, once for the line that may be open and once for the declaration around it.

  Main statement: `parse_eq_ok_iff`, a source is read as a protocol exactly if it has tokens `ts`, an unplaced
  parser reads their meaning to the end, and all types are known; the protocol is what that parser has built,
  with the hash of `ts`.
-/

namespace EntitySchema

/-! ## Without places -/

/-- The use without its place. -/
def FieldUse.unplaced (u : FieldUse) : FieldUse := { u with position := .start }

/-- The field without its place. -/
def PlacedField.unplaced (f : PlacedField) : PlacedField := { f with typePosition := .start }

/-- The scope without places. -/
def Body.unplaced : Body → Body
  | fields owner read => fields owner (read.map PlacedField.unplaced)
  | constants name read => constants name read
  | lods archetype => lods archetype
  | items archetype level read => items archetype level read

/-- The line without places. -/
def Entry.unplaced : Entry → Entry
  | field owner read name typeName _ => field owner (read.map PlacedField.unplaced) name typeName .start
  | constant enumeration read name value => constant enumeration read name value
  | item archetype level read type => item archetype level read type

/-- The holder without places. -/
def MetaHolder.unplaced : MetaHolder → MetaHolder
  | header h => header h
  | entry e => entry e.unplaced

/-- The state without places. -/
def State.unplaced : State → State
  | opening body => opening body.unplaced
  | metaKey holder read => metaKey holder.unplaced read
  | metaValue holder read key => metaValue holder.unplaced read key
  | inBody body => inBody body.unplaced
  | fieldType owner read name => fieldType owner (read.map PlacedField.unplaced) name
  | entry e => entry e.unplaced
  | entryEnd e metadata => entryEnd e.unplaced metadata
  | other => other

/-- The effect without places. -/
def Effect.unplaced : Effect → Effect
  | declare x uses => declare x (uses.map FieldUse.unplaced)
  | other => other

/-- The move without places. -/
def Move.unplaced (m : Move) : Move := ⟨m.state.unplaced, m.effect.unplaced⟩

/-- The parser without places. -/
def Parser.unplaced (p : Parser) : Parser :=
  ⟨p.draft, p.uses.map FieldUse.unplaced, p.state.unplaced⟩

/-! ## The same steps -/

/-- A field is the same without its place. -/
theorem PlacedField.map_field_unplaced (read : List PlacedField) :
    (read.map PlacedField.unplaced).map (·.field) = read.map (·.field) := by
  rw [List.map_map]
  rfl

/-- The uses of fields without places are the uses without places. -/
theorem FieldOwner.uses_unplaced (owner : FieldOwner) (read : List PlacedField) :
    owner.uses (read.map PlacedField.unplaced) = (owner.uses read).map FieldUse.unplaced := by
  cases owner with
  | component =>
    simp only [uses, List.map_map]
    rfl
  | event | type | buffer | command => rfl

/-- A scope that opens has no places yet. -/
theorem Header.body_unplaced (h : Header) (metadata : Metadata) :
    (h.body metadata).unplaced = h.body metadata := by
  cases h with
  | component | event => simp [body, Body.unplaced]
  | archetype => rfl

/-- To close a line forgets its places. -/
theorem Entry.close_unplaced (e : Entry) (metadata : Metadata) :
    (e.close metadata).unplaced = e.unplaced.close metadata := by
  cases e with
  | field => simp [close, unplaced, Body.unplaced, PlacedField.unplaced]
  | constant | item => rfl

/-- So does the state behind meta data. -/
theorem MetaHolder.after_unplaced (h : MetaHolder) (metadata : Metadata) :
    (h.after metadata).unplaced = h.unplaced.after metadata := by
  cases h with
  | header h => exact congrArg State.opening (h.body_unplaced metadata)
  | entry => rfl

/-- So does the end of a scope. -/
theorem Body.close_unplaced (b : Body) : b.unplaced.close = b.close.map Move.unplaced := by
  cases b with
  | fields owner read =>
    simp only [unplaced, close, Array.toList_map, PlacedField.map_field_unplaced,
      FieldOwner.uses_unplaced]
    rfl
  | constants | lods => rfl
  | items archetype level read =>
    simp only [unplaced, close]
    cases archetype.addLod level read.toList <;> rfl

/-- So does the first word of a line. -/
theorem Body.startEntry_unplaced (b : Body) (host : HostTypes) (draft : Draft) (word : String) :
    b.unplaced.startEntry host draft word = (b.startEntry host draft word).map Move.unplaced := by
  cases b with
  | fields | constants => rfl
  | lods archetype =>
    simp only [unplaced, startEntry]
    split <;> rfl
  | items archetype level read =>
    simp only [unplaced, startEntry]
    cases resolve host draft word <;> rfl

/-- What a scope says of a lexeme that it does not take knows no place. -/
theorem Body.fault_unplaced (b : Body) (found : Option Lexeme) : b.unplaced.fault found = b.fault found := by
  cases b <;> rfl

/-- Behind a name no place was kept. -/
theorem State.afterName_unplaced (name : String) (k : Kind) :
    (afterName name k).unplaced = afterName name k := by
  cases k with
  | type | buffer => simp [afterName, unplaced, Body.unplaced]
  | component | event | archetype | command | enumeration => rfl

/-- Nor behind a keyword. -/
theorem State.afterKeyword_unplaced (k : Keyword) : (afterKeyword k).unplaced = afterKeyword k := by
  cases k <;> rfl

/-- A line ends in the same way. -/
theorem State.onLineEnd_unplaced (found : Option Lexeme) {move move' : Move}
    (h : move' = move.unplaced) :
    onLineEnd found move' = (onLineEnd found move).map Move.unplaced := by
  subst h
  unfold onLineEnd
  split <;> rfl

namespace State

/-! Each part of a step commutes with forgetting the places.  Faults carry none, so only moves are looked at. -/

theorem stepBetween_unplaced (found : Option Lexeme) :
    stepBetween found = (stepBetween found).map Move.unplaced := by
  unfold stepBetween
  split
  · rfl
  · rfl
  · split
    · next keyword _ => exact congrArg (fun s => Except.ok (Move.enter s)) (afterKeyword_unplaced keyword).symm
    · rfl
  · rfl

theorem stepNamespaceMore_unplaced (path : String) (found : Option Lexeme) :
    stepNamespaceMore path found = (stepNamespaceMore path found).map Move.unplaced := by
  unfold stepNamespaceMore
  split
  · rfl
  · exact onLineEnd_unplaced found rfl

theorem stepName_unplaced (draft : Draft) (kind : Kind) (found : Option Lexeme) :
    stepName draft kind found = (stepName draft kind found).map Move.unplaced := by
  simp only [stepName, onSymbol]
  split
  · split
    · rfl
    · split
      · rfl
      · exact congrArg (fun s => Except.ok (Move.enter s)) (afterName_unplaced _ kind).symm
  · rfl

theorem stepHeader_unplaced (h : Header) (found : Option Lexeme) :
    stepHeader h found = (stepHeader h found).map Move.unplaced := by
  unfold stepHeader
  split
  · rfl
  · exact congrArg (fun b => Except.ok (Move.enter (inBody b))) (h.body_unplaced _).symm
  · rfl

theorem stepOpening_unplaced (body : Body) (found : Option Lexeme) :
    stepOpening body.unplaced found = (stepOpening body found).map Move.unplaced := by
  unfold stepOpening
  split <;> rfl

theorem stepCommandForm_unplaced (name : String) (found : Option Lexeme) :
    stepCommandForm name found = (stepCommandForm name found).map Move.unplaced := by
  unfold stepCommandForm
  split
  · simp [Except.map, Move.unplaced, Move.enter, State.unplaced, Body.unplaced, Effect.unplaced]
  · rfl
  · rfl

theorem stepMetaKey_unplaced (holder : MetaHolder) (read : Metadata) (found : Option Lexeme) :
    stepMetaKey holder.unplaced read found = (stepMetaKey holder read found).map Move.unplaced := by
  unfold stepMetaKey
  split
  · exact congrArg (fun s => Except.ok (Move.enter s)) (holder.after_unplaced read).symm
  · rfl
  · rfl

theorem stepMetaValue_unplaced (holder : MetaHolder) (read : Metadata) (key : String) (found : Option Lexeme) :
    stepMetaValue holder.unplaced read key found = (stepMetaValue holder read key found).map Move.unplaced := by
  unfold stepMetaValue
  split <;> rfl

theorem stepBody_unplaced (host : HostTypes) (draft : Draft) (body : Body) (found : Option Lexeme) :
    stepBody host draft body.unplaced found = (stepBody host draft body found).map Move.unplaced := by
  unfold stepBody
  split
  · exact body.startEntry_unplaced host draft _
  · exact body.close_unplaced
  · rw [body.fault_unplaced]
    rfl

theorem stepLodLevel_unplaced (archetype : Archetype) (found : Option Lexeme) :
    stepLodLevel archetype found = (stepLodLevel archetype found).map Move.unplaced := by
  simp only [stepLodLevel, onNumber]
  split
  · split <;> rfl
  · rfl

theorem stepEntry_unplaced (e : Entry) (found : Option Lexeme) :
    stepEntry e.unplaced found = (stepEntry e found).map Move.unplaced := by
  unfold stepEntry
  split
  · rfl
  · rw [← e.close_unplaced]
    exact onLineEnd_unplaced found rfl

/-- Without places the machine takes the same steps.  Only the type of a field is kept with its place, and the
place it is read at is the one that is forgotten then. -/
theorem step_unplaced (s : State) (host : HostTypes) (draft : Draft) (place : Position)
    (found : Option Lexeme) :
    s.unplaced.step host draft .start found = (s.step host draft place found).map Move.unplaced := by
  cases s with
  | between => exact stepBetween_unplaced found
  | namespaceMore path => exact stepNamespaceMore_unplaced path found
  | declarationName kind => exact stepName_unplaced draft kind found
  | header h => exact stepHeader_unplaced h found
  | opening body => exact stepOpening_unplaced body found
  | commandForm name => exact stepCommandForm_unplaced name found
  | metaKey holder read => exact stepMetaKey_unplaced holder read found
  | metaValue holder read key => exact stepMetaValue_unplaced holder read key found
  | inBody body => exact stepBody_unplaced host draft body found
  | lodLevel archetype => exact stepLodLevel_unplaced archetype found
  | entry e => exact stepEntry_unplaced e found
  | namespaceFirst | namespacePart | protocolName | commandReturn | constantValue | fieldType =>
    simp only [unplaced, step, onSymbol, onNumber]
    split <;> rfl
  | protocolNameEnd | commandEnd => exact onLineEnd_unplaced found rfl
  | entryEnd e metadata =>
    rw [unplaced, step, step, ← e.close_unplaced]
    exact onLineEnd_unplaced found rfl

end State

namespace Parser

/-- An effect forgets its places. -/
theorem apply_unplaced (effect : Effect) (draft : Draft) (uses : Array FieldUse) :
    apply effect.unplaced draft (uses.map FieldUse.unplaced) =
      (apply effect draft uses).map fun r => (r.1, r.2.map FieldUse.unplaced) := by
  cases effect with
  | nothing | setNamespace | setName => rfl
  | declare x more =>
    simp only [Effect.unplaced, apply]
    split
    · simp [Except.map]
    · rfl

/-- Without places a parser takes the same steps. -/
theorem feed_unplaced (host : HostTypes) (place : Position) (found : Option Lexeme) (p : Parser) :
    p.unplaced.feed host .start found = (p.feed host place found).map unplaced := by
  obtain ⟨draft, uses, state⟩ := p
  simp only [unplaced, feed, state.step_unplaced host draft place found]
  cases state.step host draft place found with
  | error => rfl
  | ok move =>
    simp only [Except.map, Move.unplaced, apply_unplaced]
    cases apply move.effect draft uses <;> rfl

end Parser

/-! ## Whole sources -/

/-- The lexemes that carry meaning. -/
def Token.meaning (ts : List Token) : List Lexeme := (Token.withoutComments ts).map (·.lexeme)

namespace Parser

/-- The parser after some lexemes, of which none is a comment. -/
def feedLexemes (host : HostTypes) (p : Parser) : List Lexeme → Except ParseFault Parser
  | [] => .ok p
  | x :: xs =>
    match p.feed host .start (some x) with
    | .ok p => p.feedLexemes host xs
    | .error fault => .error fault

/-- The parser is fed the lexemes and the end of the source, and comes to `q`. -/
def Completes (host : HostTypes) (p : Parser) (xs : List Lexeme) (q : Parser) : Prop :=
  ∃ mid last, p.feedLexemes host xs = .ok mid ∧ mid.feed host .start none = .ok last ∧
    last.feed host .start none = .ok q

/-- What a parser makes of tokens, without its places, is what it makes of their meaning. -/
theorem feedTokens_eq_ok_iff (host : HostTypes) (p q : Parser) (ts : List Token) :
    (∃ q', p.feedTokens host ts = .ok q' ∧ q'.unplaced = q) ↔
      p.unplaced.feedLexemes host (Token.meaning ts) = .ok q := by
  induction ts generalizing p with
  | nil => simp [feedTokens, feedLexemes, Token.meaning, Token.withoutComments]
  | cons t ts ih =>
    rw [feedTokens, feedToken, Token.meaning, Token.withoutComments, List.filter_cons]
    cases ht : t.isComment with
    -- Comments are fed to nobody.
    | true => simpa [Token.meaning, Token.withoutComments] using ih p
    | false =>
      have hfeed := feed_unplaced host t.position (some t.lexeme) p
      simp only [Bool.false_eq_true, if_false, Bool.not_false, if_true, List.map_cons, feedLexemes,
        hfeed]
      cases p.feed host t.position (some t.lexeme) with
      | ok p' => exact ih p'
      | error fault => simp [Except.map]

/-- The same for the end of the source, which is told twice. -/
theorem feedEnd_eq_ok_iff (host : HostTypes) (place : Position) (p q : Parser) :
    (∃ q', p.feedEnd host place = .ok q' ∧ q'.unplaced = q) ↔
      ∃ last, p.unplaced.feed host .start none = .ok last ∧ last.feed host .start none = .ok q := by
  rw [feedEnd, feed_unplaced host place none p]
  cases p.feed host place none with
  | error => simp [Except.map]
  | ok last =>
    simp only [Except.map, Except.ok.injEq, exists_eq_left', feed_unplaced host place none last]
    cases last.feed host place none with
    | error => simp
    | ok q' => simp

/-- The types of all component fields are known. -/
def KnowsUses (host : HostTypes) (p : Parser) : Prop :=
  host.restrictsFields → ∀ u ∈ p.uses, p.knowsFieldType host u.typeName

/-- No use is found to be unknown exactly if all of them are known. -/
theorem unknownUse?_eq_none_iff (host : HostTypes) (p : Parser) :
    p.unknownUse? host = none ↔ p.KnowsUses host := by
  unfold unknownUse? KnowsUses
  split
  · next h => simp [h]
  · next h => simp [h]

/-- Whether a type is known does not depend on its place. -/
theorem knowsUses_unplaced (host : HostTypes) (p : Parser) :
    p.unplaced.KnowsUses host ↔ p.KnowsUses host := by
  simp [KnowsUses, unplaced, FieldUse.unplaced]
  exact Iff.rfl

/-- At the start there are no places. -/
theorem start_unplaced : start.unplaced = start := by
  simp [unplaced, start, State.unplaced]

/-- Tokens are read to the end exactly if there is no lexical fault and they are taken one by one and then the
end. -/
theorem feedRead_eq_ok_iff {host : HostTypes} {place : Position} {ts : List Token}
    {error : Option LexError} {p q : Parser} :
    p.feedRead host place ts error = .ok q ↔ error = none ∧ ∃ mid,
      p.feedTokens host ts = .ok mid ∧ mid.feedEnd host (placeAfter place ts) = .ok q := by
  unfold feedRead
  cases p.feedTokens host ts with
  | error => simp
  | ok mid =>
    cases error with
    | some => simp
    | none => cases hend : mid.feedEnd host (placeAfter place ts) <;> simp [hend]

/-- What a placed parser builds from tokens is what an unplaced one builds from their lexemes. -/
theorem completes_iff {host : HostTypes} {ts : List Token} {q : Parser} :
    start.Completes host (Token.meaning ts) q ↔
      ∃ mid p, start.feedTokens host ts = .ok mid ∧ mid.feedEnd host (placeAfter .start ts) = .ok p ∧
        p.unplaced = q := by
  have htokens := fun q => feedTokens_eq_ok_iff host start q ts
  rw [start_unplaced] at htokens
  constructor
  · rintro ⟨mid, last, hmid, hend⟩
    obtain ⟨mid', hmid', rfl⟩ := (htokens mid).2 hmid
    obtain ⟨p, hp, hq⟩ := (feedEnd_eq_ok_iff host (placeAfter .start ts) mid' q).2 ⟨last, hend⟩
    exact ⟨mid', p, hmid', hp, hq⟩
  · rintro ⟨mid, p, hmid, hp, hq⟩
    obtain ⟨last, hend⟩ := (feedEnd_eq_ok_iff host (placeAfter .start ts) mid q).1 ⟨p, hp, hq⟩
    exact ⟨mid.unplaced, last, (htokens mid.unplaced).1 ⟨mid, hmid, rfl⟩, hend⟩

/-- A source is read as what an unplaced parser builds from its lexemes. -/
theorem parse_eq_ok_iff {host : HostTypes} {source : String} {r : Protocol} :
    parse host source = .ok r ↔
      ∃ ts q, tokenize source = .ok ts ∧
        start.Completes host (Token.meaning ts) q ∧ q.KnowsUses host ∧
        r = q.draft.finish (contentHash ts) := by
  have hcheck : ∀ p : Parser, p.checkFieldTypes host = .ok () ↔ p.KnowsUses host := by
    intro p
    rw [← unknownUse?_eq_none_iff, checkFieldTypes]
    cases p.unknownUse? host <;> simp
  -- First with the places, as the source is parsed, and then without them.
  have hparse : parse host source = .ok r ↔
      ∃ p, start.feedRead host .start (lex source).tokens (lex source).error = .ok p ∧
        p.KnowsUses host ∧ p.draft.finish (contentHash (lex source).tokens) = r := by
    rw [parse_eq_feedRead]
    cases start.feedRead host .start (lex source).tokens (lex source).error with
    | error => simp
    | ok p =>
      have hp := hcheck p
      cases hknown : p.checkFieldTypes host with
      | error => simp [hknown, ← hp]
      | ok => simp [hknown, ← hp]
  rw [hparse]
  constructor
  · rintro ⟨p, hsource, hknown, hr⟩
    obtain ⟨hnone, mid, hmid, hend⟩ := feedRead_eq_ok_iff.1 hsource
    exact ⟨(lex source).tokens, p.unplaced, tokenize_eq_ok_iff_lex.2 ⟨hnone, rfl⟩,
      completes_iff.2 ⟨mid, p, hmid, hend, rfl⟩, (knowsUses_unplaced host p).2 hknown, hr.symm⟩
  · rintro ⟨ts, q, hts, hq, hknown, hr⟩
    obtain ⟨hnone, rfl⟩ := tokenize_eq_ok_iff_lex.1 hts
    obtain ⟨mid, p, hmid, hend, rfl⟩ := completes_iff.1 hq
    exact ⟨p, feedRead_eq_ok_iff.2 ⟨hnone, mid, hmid, hend⟩, (knowsUses_unplaced host p).1 hknown,
      hr.symm⟩

end Parser

end EntitySchema
