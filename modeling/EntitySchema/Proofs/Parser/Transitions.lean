import EntitySchema.Proofs.Parser.Clauses
import EntitySchema.Proofs.Parser.History
/-!
  The transitions of the machine.

  `Moves host draft place s found move` lists the moves that the machine can make from the state `s` at
  `found`, a lexeme or the end of the source, and `Refuses s found fault` the faults that it can find.  A step
  is one or the other:

      s.step host draft place found = .ok move    ↔ Moves host draft place s found move     (`step_eq_ok_iff`)
      s.step host draft place found = .error e    → Refuses s found e, in a state that is `Granted`

  Each is proved from one lemma for each sort of state, `moves_of_stepBody` and its siblings, which is all
  that has to change with the machine.  Whatever holds of all steps is shown by going through the two lists,
  without opening the machine again.

  Three things are looked at twice: that the name of a declaration is new and that its kind is not full, first
  at the name and then when the declaration is complete; and that a level of detail is the next one, first at
  its number and then at the end of its scope.  In between nothing can change, because only complete
  declarations and levels are added.  What was granted at the first look stays `Granted` (`Moves.granted`, and
  along a parse `granted_of_feedTokens`), so no second look ever fails, and `Refuses` knows of none
  (`refuses_of_feed`).
-/

namespace EntitySchema

/-- The line ends: at its mark, or with the source. -/
def Lexeme.EndsLine (found : Option Lexeme) : Prop := found = some .endLine ∨ found = none

namespace State

/-! ## Moves -/

/-- The moves that the machine can make. -/
inductive Moves (host : HostTypes) (draft : Draft) (place : Position) :
    State → Option Lexeme → Move → Prop where
  /-- Between declarations a line or the source ends. -/
  | blank {found : Option Lexeme} (hend : Lexeme.EndsLine found) :
      Moves host draft place .between found (.enter .between)
  /-- A keyword starts a line. -/
  | keyword {k : Keyword} :
      Moves host draft place .between (some (.symbol k.word)) (.enter (afterKeyword k))
  /-- The first part of a namespace. -/
  | namespaceFirst {path : String} :
      Moves host draft place .namespaceFirst (some (.symbol path)) (.enter (.namespaceMore path))
  /-- A dot, before another part. -/
  | namespaceDot {path : String} :
      Moves host draft place (.namespaceMore path) (some (.operator '.')) (.enter (.namespacePart path))
  /-- Another part. -/
  | namespacePart {path part : String} : Moves host draft place (.namespacePart path) (some (.symbol part))
      (.enter (.namespaceMore (path ++ "." ++ part)))
  /-- The end of the namespace. -/
  | namespaceEnd {path : String} {found : Option Lexeme} (hend : Lexeme.EndsLine found) :
      Moves host draft place (.namespaceMore path) found ⟨.between, .setNamespace path⟩
  /-- The name of the protocol. -/
  | protocolName {name : String} :
      Moves host draft place .protocolName (some (.symbol name)) (.enter (.protocolNameEnd name))
  /-- The end of its line. -/
  | protocolNameEnd {name : String} {found : Option Lexeme} (hend : Lexeme.EndsLine found) :
      Moves host draft place (.protocolNameEnd name) found ⟨.between, .setName name⟩
  /-- The name of a declaration, which the draft admits. -/
  | declarationName {kind : Kind} {name : String} (hfree : ∃ index, draft.admit? kind name = .ok index) :
      Moves host draft place (.declarationName kind) (some (.symbol name)) (.enter (afterName name kind))
  /-- Meta data on a first line. -/
  | headerMeta {h : Header} :
      Moves host draft place (.header h) (some .openMeta) (.enter (.metaKey (.header h) .empty))
  /-- A scope right behind the name. -/
  | headerOpens {h : Header} :
      Moves host draft place (.header h) (some .openScope) (.enter (.inBody (h.body .empty)))
  /-- A scope behind meta data. -/
  | opens {body : Body} :
      Moves host draft place (.opening body) (some .openScope) (.enter (.inBody body))
  /-- A command with fields. -/
  | commandOpens {name : String} : Moves host draft place (.commandForm name) (some .openScope)
      (.enter (.inBody (.fields (.command name) #[])))
  /-- A command with a parameter. -/
  | parameterType {name parameterType : String} : Moves host draft place (.commandForm name)
      (some (.symbol parameterType)) (.enter (.commandReturn name parameterType))
  /-- The type of its result. -/
  | returnType {name parameterType returnType : String} :
      Moves host draft place (.commandReturn name parameterType) (some (.symbol returnType))
        (.enter (.commandEnd name parameterType returnType))
  /-- The end of its line, which completes it. -/
  | signatureEnd {name parameterType returnType : String} {found : Option Lexeme}
      (hend : Lexeme.EndsLine found) :
      Moves host draft place (.commandEnd name parameterType returnType) found
        (.complete (.command ⟨0, name, .signature parameterType returnType⟩) [])
  /-- A key of meta data. -/
  | metaKey {holder : MetaHolder} {read : Metadata} {key : String} :
      Moves host draft place (.metaKey holder read) (some (.symbol key)) (.enter (.metaValue holder read key))
  /-- Its value, which is inserted. -/
  | metaValue {holder : MetaHolder} {read : Metadata} {key value : String} :
      Moves host draft place (.metaValue holder read key) (some (.string value))
        (.enter (.metaKey holder (read.insert key value)))
  /-- The closing bracket. -/
  | metaEnd {holder : MetaHolder} {read : Metadata} :
      Moves host draft place (.metaKey holder read) (some .closeMeta) (.enter (holder.after read))
  /-- The name of a field. -/
  | fieldName {owner : FieldOwner} {read : Array PlacedField} {name : String} :
      Moves host draft place (.inBody (.fields owner read)) (some (.symbol name))
        (.enter (.fieldType owner read name))
  /-- Its type, with its place. -/
  | fieldType {owner : FieldOwner} {read : Array PlacedField} {name typeName : String} :
      Moves host draft place (.fieldType owner read name) (some (.symbol typeName))
        (.enter (.entry (.field owner read name typeName place)))
  /-- The name of a constant. -/
  | constantName {enumeration name : String} {read : Array Constant} :
      Moves host draft place (.inBody (.constants enumeration read)) (some (.symbol name))
        (.enter (.constantValue enumeration read name))
  /-- Its value. -/
  | constantValue {enumeration name : String} {read : Array Constant} {value : Int} :
      Moves host draft place (.constantValue enumeration read name) (some (.number value))
        (.enter (.entry (.constant enumeration read name value)))
  /-- The word of a level of detail. -/
  | lod {archetype : Archetype} : Moves host draft place (.inBody (.lods archetype)) (some (.symbol "lod"))
      (.enter (.lodLevel archetype))
  /-- Its number, which is the next one. -/
  | lodLevel {archetype : Archetype} {level : Int} (hnext : ∃ next, archetype.nextLevel level = .ok next) :
      Moves host draft place (.lodLevel archetype) (some (.number level))
        (.enter (.opening (.items archetype level #[])))
  /-- The name of an item, which is known. -/
  | item {archetype : Archetype} {level : Int} {read : Array Item} {name : String} {type : ItemType}
      (htype : Body.resolve host draft name = .ok type) :
      Moves host draft place (.inBody (.items archetype level read)) (some (.symbol name))
        (.enter (.entry (.item archetype level read type)))
  /-- Meta data on a line of a scope. -/
  | entryMeta {e : Entry} :
      Moves host draft place (.entry e) (some .openMeta) (.enter (.metaKey (.entry e) .empty))
  /-- The end of such a line without meta data. -/
  | entryEnds {e : Entry} {found : Option Lexeme} (hend : Lexeme.EndsLine found) :
      Moves host draft place (.entry e) found (.enter (.inBody (e.close .empty)))
  /-- And with them. -/
  | entryEnd {e : Entry} {metadata : Metadata} {found : Option Lexeme} (hend : Lexeme.EndsLine found) :
      Moves host draft place (.entryEnd e metadata) found (.enter (.inBody (e.close metadata)))
  /-- The end of a scope of fields, which completes their declaration. -/
  | fieldsClose {owner : FieldOwner} {read : Array PlacedField} :
      Moves host draft place (.inBody (.fields owner read)) (some .closeScope)
        (.complete (owner.declaration (read.toList.map (·.field))) (owner.uses read.toList))
  /-- The end of an enumeration. -/
  | constantsClose {enumeration : String} {read : Array Constant} :
      Moves host draft place (.inBody (.constants enumeration read)) (some .closeScope)
        (.complete (.enumeration ⟨enumeration, read.toList⟩) [])
  /-- The end of an archetype. -/
  | lodsClose {archetype : Archetype} :
      Moves host draft place (.inBody (.lods archetype)) (some .closeScope)
        (.complete (.archetype archetype) [])
  /-- The end of a level of detail, which is added. -/
  | itemsClose {archetype next : Archetype} {level : Int} {read : Array Item}
      (hadd : archetype.addLod level read.toList = .ok next) :
      Moves host draft place (.inBody (.items archetype level read)) (some .closeScope)
        (.enter (.inBody (.lods next)))

variable {host : HostTypes} {draft : Draft} {place : Position} {s : State} {found : Option Lexeme}
  {move : Move}

/-- A line ends in one way. -/
theorem onLineEnd_eq_ok {next : Move} (h : onLineEnd found next = .ok move) :
    Lexeme.EndsLine found ∧ move = next := by
  unfold onLineEnd at h
  split at h
  · cases h
    exact ⟨Or.inl rfl, rfl⟩
  · cases h
    exact ⟨Or.inr rfl, rfl⟩
  · cases h

/-- Where a symbol is wanted it was found, and the move is that of its text. -/
theorem onSymbol_eq_ok {what : Wanted} {next : String → Except ParseFault Move}
    (h : onSymbol what found next = .ok move) : ∃ text, found = some (.symbol text) ∧ next text = .ok move := by
  unfold onSymbol at h
  split at h
  · next text => exact ⟨text, rfl, h⟩
  · cases h

/-- Where a number is wanted it was found, and the move is that of its value. -/
theorem onNumber_eq_ok {what : Wanted} {next : Int → Except ParseFault Move}
    (h : onNumber what found next = .ok move) : ∃ value, found = some (.number value) ∧ next value = .ok move := by
  unfold onNumber at h
  split at h
  · next value => exact ⟨value, rfl, h⟩
  · cases h

/-- In a scope a symbol starts a line, and the end of the scope closes it. -/
theorem moves_of_stepBody {body : Body} (h : stepBody host draft body found = .ok move) :
    Moves host draft place (.inBody body) found move := by
  unfold stepBody at h
  split at h
  -- What the first word of a line may be depends on the scope.
  · next word =>
    cases body with
    | fields =>
      cases h
      exact .fieldName
    | constants =>
      cases h
      exact .constantName
    | lods archetype =>
      simp only [Body.startEntry] at h
      split at h
      · next hword =>
        cases h
        subst hword
        exact .lod
      · cases h
    | items archetype level read =>
      simp only [Body.startEntry] at h
      split at h
      · next type htype =>
        cases h
        exact .item htype
      · cases h
  · cases body with
    | fields =>
      cases h
      exact .fieldsClose
    | constants =>
      cases h
      exact .constantsClose
    | lods =>
      cases h
      exact .lodsClose
    | items archetype level read =>
      simp only [Body.close] at h
      -- Of the scopes only a level of detail can refuse its end.
      split at h
      · next hadd =>
        cases h
        exact .itemsClose hadd
      · cases h
  · cases h

/-- Between declarations only keywords start a line. -/
theorem moves_of_stepBetween (h : stepBetween found = .ok move) : Moves host draft place .between found move := by
  unfold stepBetween at h
  split at h
  · cases h
    exact .blank (Or.inl rfl)
  · cases h
    exact .blank (Or.inr rfl)
  · split at h
    · next k hk =>
      cases h
      obtain rfl := Keyword.word_of_ofWord? hk
      exact .keyword
    · cases h
  · cases h

/-- Behind a part of a namespace comes a dot or the end. -/
theorem moves_of_stepNamespaceMore {path : String} (h : stepNamespaceMore path found = .ok move) :
    Moves host draft place (.namespaceMore path) found move := by
  unfold stepNamespaceMore at h
  split at h
  · cases h
    exact .namespaceDot
  · obtain ⟨hend, rfl⟩ := onLineEnd_eq_ok h
    exact .namespaceEnd hend

/-- The two looks at a name, whether it is new and whether its kind has room, are those of `Draft.admit?`. -/
theorem moves_of_stepName {kind : Kind} (h : stepName draft kind found = .ok move) :
    Moves host draft place (.declarationName kind) found move := by
  obtain ⟨name, rfl, hname⟩ := onSymbol_eq_ok h
  split at hname
  · cases hname
  next hunique =>
  split at hname
  · cases hname
  next index hindex =>
  cases hname
  exact .declarationName ⟨index, Draft.admit?_eq_ok_iff.2 ⟨hindex, hunique⟩⟩

/-- Behind a name come meta data or the scope. -/
theorem moves_of_stepHeader {header : Header} (h : stepHeader header found = .ok move) :
    Moves host draft place (.header header) found move := by
  unfold stepHeader at h
  split at h
  · cases h
    exact .headerMeta
  · cases h
    exact .headerOpens
  · cases h

/-- Behind meta data comes the scope. -/
theorem moves_of_stepOpening {body : Body} (h : stepOpening body found = .ok move) :
    Moves host draft place (.opening body) found move := by
  unfold stepOpening at h
  split at h
  · cases h
    exact .opens
  · cases h

/-- Behind the name of a command comes the scope or a type. -/
theorem moves_of_stepCommandForm {name : String} (h : stepCommandForm name found = .ok move) :
    Moves host draft place (.commandForm name) found move := by
  unfold stepCommandForm at h
  split at h
  · cases h
    exact .commandOpens
  · cases h
    exact .parameterType
  · cases h

/-- In brackets comes a key or the end. -/
theorem moves_of_stepMetaKey {holder : MetaHolder} {read : Metadata}
    (h : stepMetaKey holder read found = .ok move) : Moves host draft place (.metaKey holder read) found move := by
  unfold stepMetaKey at h
  split at h
  · cases h
    exact .metaEnd
  · cases h
    exact .metaKey
  · cases h

/-- Behind a key comes its value. -/
theorem moves_of_stepMetaValue {holder : MetaHolder} {read : Metadata} {key : String}
    (h : stepMetaValue holder read key found = .ok move) :
    Moves host draft place (.metaValue holder read key) found move := by
  unfold stepMetaValue at h
  split at h
  · cases h
    exact .metaValue
  · cases h

/-- A number is taken if it is that of the next level. -/
theorem moves_of_stepLodLevel {archetype : Archetype} (h : stepLodLevel archetype found = .ok move) :
    Moves host draft place (.lodLevel archetype) found move := by
  obtain ⟨level, rfl, hlevel⟩ := onNumber_eq_ok h
  split at hlevel
  · next n hnext =>
    cases hlevel
    exact .lodLevel ⟨n, hnext⟩
  · cases hlevel

/-- A line of a scope ends, or has meta data. -/
theorem moves_of_stepEntry {e : Entry} (h : stepEntry e found = .ok move) :
    Moves host draft place (.entry e) found move := by
  unfold stepEntry at h
  split at h
  · cases h
    exact .entryMeta
  · obtain ⟨hend, rfl⟩ := onLineEnd_eq_ok h
    exact .entryEnds hend

/-- Every step that is taken is one of the moves: the states that expect one symbol, one number or the end of a
line have a single move, and each of the others has its lemma above. -/
theorem moves_of_step (h : s.step host draft place found = .ok move) :
    Moves host draft place s found move := by
  cases s with
  | between => exact moves_of_stepBetween h
  | namespaceMore => exact moves_of_stepNamespaceMore h
  | declarationName => exact moves_of_stepName h
  | header => exact moves_of_stepHeader h
  | opening => exact moves_of_stepOpening h
  | commandForm => exact moves_of_stepCommandForm h
  | metaKey => exact moves_of_stepMetaKey h
  | metaValue => exact moves_of_stepMetaValue h
  | inBody => exact moves_of_stepBody h
  | lodLevel => exact moves_of_stepLodLevel h
  | entry => exact moves_of_stepEntry h
  | namespaceFirst =>
    obtain ⟨path, rfl, h⟩ := onSymbol_eq_ok h
    cases h
    exact .namespaceFirst
  | namespacePart =>
    obtain ⟨part, rfl, h⟩ := onSymbol_eq_ok h
    cases h
    exact .namespacePart
  | protocolName =>
    obtain ⟨name, rfl, h⟩ := onSymbol_eq_ok h
    cases h
    exact .protocolName
  | commandReturn =>
    obtain ⟨returnType, rfl, h⟩ := onSymbol_eq_ok h
    cases h
    exact .returnType
  | fieldType =>
    obtain ⟨typeName, rfl, h⟩ := onSymbol_eq_ok h
    cases h
    exact .fieldType
  | constantValue =>
    obtain ⟨value, rfl, h⟩ := onNumber_eq_ok h
    cases h
    exact .constantValue
  | protocolNameEnd =>
    obtain ⟨hend, rfl⟩ := onLineEnd_eq_ok h
    exact .protocolNameEnd hend
  | commandEnd =>
    obtain ⟨hend, rfl⟩ := onLineEnd_eq_ok h
    exact .signatureEnd hend
  | entryEnd =>
    obtain ⟨hend, rfl⟩ := onLineEnd_eq_ok h
    exact .entryEnd hend

/-- Every move is taken. -/
theorem step_of_moves (h : Moves host draft place s found move) :
    s.step host draft place found = .ok move := by
  cases h with
  | keyword => simp [step, stepBetween, Keyword.ofWord?_word]
  | declarationName hfree =>
    obtain ⟨index, hindex⟩ := hfree
    obtain ⟨hindex, hunique⟩ := Draft.admit?_eq_ok_iff.1 hindex
    simp [step, stepName, onSymbol, hindex, hunique]
  | lodLevel hnext =>
    obtain ⟨n, hn⟩ := hnext
    simp [step, stepLodLevel, onNumber, hn]
  | item htype => simp [step, stepBody, Body.startEntry, htype]
  | itemsClose hadd => simp [step, stepBody, Body.close, hadd]
  | blank hend | namespaceEnd hend | protocolNameEnd hend | signatureEnd hend | entryEnds hend
  | entryEnd hend =>
    rcases hend with rfl | rfl
    · rfl
    · rfl
  | namespaceFirst | namespaceDot | namespacePart | protocolName | headerMeta | headerOpens | opens
  | commandOpens | parameterType | returnType | metaKey | metaValue | metaEnd | fieldName | fieldType
  | constantName | constantValue | lod | entryMeta | fieldsClose | constantsClose | lodsClose => rfl

/-- The machine takes exactly the moves. -/
theorem step_eq_ok_iff : s.step host draft place found = .ok move ↔ Moves host draft place s found move :=
  ⟨moves_of_step, step_of_moves⟩

end State

/-! ## What was granted -/

/-- The kind and the name of the declaration that the scope belongs to. -/
def Body.declared : Body → Kind × String
  | fields owner _ => ((owner.declaration []).kind, (owner.declaration []).name)
  | constants name _ => (.enumeration, name)
  | lods archetype | items archetype _ _ => (.archetype, archetype.name)

/-- The draft takes the declaration that the scope belongs to, and a level of detail is the next one. -/
structure Body.Granted (draft : Draft) (b : Body) : Prop where
  /-- The draft still admits the name. -/
  name : ∃ index, draft.admit? b.declared.1 b.declared.2 = .ok index
  /-- The level whose items are read is still the next one. -/
  level : ∀ archetype level read, b = .items archetype level read → ∃ next, archetype.nextLevel level = .ok next

/-- The scope that is open, or that would open now. -/
def State.scope? : State → Option Body
  | header h | metaKey (.header h) _ | metaValue (.header h) _ _ => some (h.body .empty)
  | opening b | inBody b => some b
  | commandForm name | commandReturn name _ | commandEnd name _ _ => some (.fields (.command name) #[])
  | fieldType owner read _ => some (.fields owner read)
  | constantValue name read _ => some (.constants name read)
  | lodLevel archetype => some (.lods archetype)
  | entry e | entryEnd e _ | metaKey (.entry e) _ | metaValue (.entry e) _ _ => some (e.close .empty)
  | between | namespaceFirst | namespaceMore _ | namespacePart _ | protocolName | protocolNameEnd _
  | declarationName _ => none

/-- What was granted to the open declaration holds still. -/
def State.Granted (draft : Draft) (s : State) : Prop := ∀ b, s.scope? = some b → b.Granted draft

section

variable {host : HostTypes} {draft : Draft} {place : Position} {s : State} {found : Option Lexeme}
  {move : Move} {b : Body}

/-- Meta data and further lines change nothing of what was granted. -/
theorem Entry.granted_close {e : Entry} {metadata metadata' : Metadata}
    (h : (e.close metadata).Granted draft) : (e.close metadata').Granted draft := by
  cases e with
  | field | constant => exact ⟨h.name, nofun⟩
  | item archetype level read type =>
    refine ⟨h.name, ?_⟩
    rintro _ _ _ ⟨⟩
    exact h.level _ _ _ rfl

/-- Meta data changes nothing of what was granted at the name. -/
theorem Header.granted_body {header : Header} {metadata : Metadata}
    (h : (header.body .empty).Granted draft) : (header.body metadata).Granted draft := by
  cases header with
  | component | event | archetype => exact ⟨h.name, nofun⟩

/-- A name that the draft admits is granted to the scope behind it. -/
theorem State.granted_afterName {kind : Kind} {name : String}
    (h : ∃ index, draft.admit? kind name = .ok index) : (afterName name kind).Granted draft := by
  intro b hb
  cases kind with
  | component | type | archetype | event | command | enumeration | buffer =>
    cases hb
    exact ⟨h, nofun⟩

/-- Where no scope is open nothing was granted. -/
theorem State.granted_of_scope?_eq_none (h : s.scope? = none) : s.Granted draft := by
  intro b hb
  rw [h] at hb
  cases hb

namespace State

/-- A move keeps what was granted; or it completes a declaration, which the draft still admits. -/
theorem Moves.granted (h : Moves host draft place s found move) (hs : s.Granted draft) :
    (move.effect = .nothing ∧ move.state.Granted draft) ∨
      (move.state = .between ∧ ∀ x uses, move.effect = .declare x uses →
        ∃ index, draft.admit? x.kind x.name = .ok index) := by
  cases h with
  | blank | namespaceFirst | namespaceDot | namespacePart | protocolName =>
    exact Or.inl ⟨rfl, granted_of_scope?_eq_none rfl⟩
  | @keyword k =>
    refine Or.inl ⟨rfl, granted_of_scope?_eq_none ?_⟩
    cases k <;> rfl
  | namespaceEnd | protocolNameEnd => exact Or.inr ⟨rfl, nofun⟩
  | declarationName hfree => exact Or.inl ⟨rfl, granted_afterName hfree⟩
  | headerMeta | headerOpens | opens | commandOpens | parameterType | returnType | fieldName | constantName
  | lod | entryMeta | entryEnds =>
    -- The scope is the same.
    refine Or.inl ⟨rfl, ?_⟩
    rintro b ⟨⟩
    exact hs _ rfl
  | @metaKey holder | @metaValue holder =>
    refine Or.inl ⟨rfl, ?_⟩
    cases holder with
    | header | entry =>
      rintro b ⟨⟩
      exact hs _ rfl
  | @metaEnd holder =>
    refine Or.inl ⟨rfl, ?_⟩
    cases holder with
    | header =>
      rintro b ⟨⟩
      exact Header.granted_body (hs _ rfl)
    | entry =>
      rintro b ⟨⟩
      exact hs _ rfl
  | fieldType | constantValue =>
    refine Or.inl ⟨rfl, ?_⟩
    rintro b ⟨⟩
    exact ⟨(hs _ rfl).name, nofun⟩
  -- The level is looked at here, and granted to the scope behind its number.
  | lodLevel hnext =>
    refine Or.inl ⟨rfl, ?_⟩
    rintro b ⟨⟩
    refine ⟨(hs _ rfl).name, ?_⟩
    rintro _ _ _ ⟨⟩
    exact hnext
  | item =>
    refine Or.inl ⟨rfl, ?_⟩
    rintro b ⟨⟩
    refine ⟨(hs _ rfl).name, ?_⟩
    rintro _ _ _ ⟨⟩
    exact (hs _ rfl).level _ _ _ rfl
  | entryEnd =>
    refine Or.inl ⟨rfl, ?_⟩
    rintro b ⟨⟩
    exact Entry.granted_close (hs _ rfl)
  -- The level is added, and the next one has not been looked at.
  | @itemsClose archetype next level read hadd =>
    refine Or.inl ⟨rfl, ?_⟩
    rintro b ⟨⟩
    refine ⟨?_, nofun⟩
    show ∃ index, draft.admit? .archetype next.name = .ok index
    rw [Archetype.name_of_addLod hadd]
    exact (hs _ rfl).name
  -- What is complete has the name that was granted.
  | @fieldsClose owner read =>
    refine Or.inr ⟨rfl, ?_⟩
    rintro x uses ⟨⟩
    have hname := (hs _ rfl).name
    cases owner with
    | component | event | type | buffer | command => exact hname
  | signatureEnd | constantsClose | lodsClose =>
    refine Or.inr ⟨rfl, ?_⟩
    rintro x uses ⟨⟩
    exact (hs _ rfl).name

end State

end

/-! ## Faults -/

/-- What a fault says was found, if it says so: a lexeme, or the end of the source. -/
def ParseFault.found? : ParseFault → Option (Option Lexeme)
  | missingOpenScope found | expectedEntry _ found | unexpected found | missingLineEnd found
  | expected _ found | expectedLod found | expectedMetaKey found => some found
  | unknownKeyword _ | unknownComponentType _ | unknownFieldType _ _ | lod _ | definition _ => none

namespace State

/-- The faults that the machine can find in a state where what was granted holds still. -/
inductive Refuses : State → Option Lexeme → ParseFault → Prop where
  /-- Something else was wanted, and the fault says what was found. -/
  | found {s : State} {found : Option Lexeme} {fault : ParseFault} (h : fault.found? = some found) :
      Refuses s found fault
  /-- A line starts with a word that is no keyword. -/
  | keyword {word : String} : Refuses .between (some (.symbol word)) (.unknownKeyword word)
  /-- A name that is there already. -/
  | duplicateName {kind : Kind} {name : String} :
      Refuses (.declarationName kind) (some (.symbol name)) (.definition (.duplicateName kind name))
  /-- One declaration too many of its kind. -/
  | tooMany {kind : Kind} {name : String} {capacity : Nat} :
      Refuses (.declarationName kind) (some (.symbol name)) (.definition (.tooMany kind capacity))
  /-- An item that is no component and no type of the host. -/
  | item {archetype : Archetype} {level : Int} {read : Array Item} {name : String} :
      Refuses (.inBody (.items archetype level read)) (some (.symbol name)) (.unknownComponentType name)
  /-- A level that is not the next one. -/
  | lodLevel {archetype : Archetype} {level : Int} {e : LodError} (h : archetype.nextLevel level = .error e) :
      Refuses (.lodLevel archetype) (some (.number level)) (.lod e)

variable {host : HostTypes} {draft : Draft} {place : Position} {s : State} {found : Option Lexeme}
  {fault : ParseFault}

/-- Where a symbol is wanted, the fault is that none was found, or comes with its text. -/
theorem refuses_of_onSymbol {what : Wanted} {next : String → Except ParseFault Move}
    (h : onSymbol what found next = .error fault)
    (hnext : ∀ text, found = some (.symbol text) → next text = .error fault → s.Refuses found fault) :
    s.Refuses found fault := by
  unfold onSymbol at h
  split at h
  · next text => exact hnext text rfl h
  · cases h
    exact .found rfl

/-- Where a number is wanted, the fault is that none was found, or comes with its value. -/
theorem refuses_of_onNumber {what : Wanted} {next : Int → Except ParseFault Move}
    (h : onNumber what found next = .error fault)
    (hnext : ∀ value, found = some (.number value) → next value = .error fault → s.Refuses found fault) :
    s.Refuses found fault := by
  unfold onNumber at h
  split at h
  · next value => exact hnext value rfl h
  · cases h
    exact .found rfl

/-- Where the end of a line is wanted, the fault is that it was not found. -/
theorem refuses_of_onLineEnd {move : Move} (h : onLineEnd found move = .error fault) :
    s.Refuses found fault := by
  unfold onLineEnd at h
  split at h
  · cases h
  · cases h
  · cases h
    exact .found rfl

/-- A name is refused because it is there already or because its kind is full. -/
theorem refuses_of_stepName {kind : Kind} (h : stepName draft kind found = .error fault) :
    (declarationName kind).Refuses found fault := by
  refine refuses_of_onSymbol h ?_
  rintro name rfl hname
  split at hname
  · next e hunique =>
    cases hname
    -- The name is looked at before the room for it.
    unfold Draft.checkUnique at hunique
    split at hunique
    · cases hunique
      exact .duplicateName
    · cases hunique
  · split at hname
    · next e hindex =>
      cases hname
      unfold Draft.nextIndex at hindex
      split at hindex
      · split at hindex
        · cases hindex
        · cases hindex
          exact .tooMany
      · cases hindex
    · cases hname

/-- The end of a scope is no fault: its level of detail can still be added. -/
theorem refuses_of_stepBody {body : Body} (h : stepBody host draft body found = .error fault)
    (hbody : body.Granted draft) : (inBody body).Refuses found fault := by
  unfold stepBody at h
  split at h
  · next word =>
    cases body with
    | fields | constants => cases h
    | lods =>
      simp only [Body.startEntry] at h
      split at h
      · cases h
      · cases h
        exact .found rfl
    | items archetype level read =>
      simp only [Body.startEntry] at h
      split at h
      · cases h
      · next hresolve =>
        cases h
        unfold Body.resolve at hresolve
        split at hresolve
        · cases hresolve
        split at hresolve
        · cases hresolve
        · cases hresolve
          exact .item
  · cases body with
    | fields | constants | lods => cases h
    | items archetype level read =>
      obtain ⟨n, hn⟩ := hbody.level archetype level read rfl
      simp [Body.close, Archetype.addLod, hn] at h
  · cases h
    cases body with
    | fields | constants | lods | items => exact .found rfl

/-- Between declarations words that are no keywords are refused, and whatever is no word. -/
theorem refuses_of_stepBetween (h : stepBetween found = .error fault) : between.Refuses found fault := by
  unfold stepBetween at h
  split at h
  · cases h
  · cases h
  · split at h
    · cases h
    · cases h
      exact .keyword
  · cases h
    exact .found rfl

/-- Behind a part of a namespace everything but a dot and the end is refused. -/
theorem refuses_of_stepNamespaceMore {path : String} (h : stepNamespaceMore path found = .error fault) :
    s.Refuses found fault := by
  unfold stepNamespaceMore at h
  split at h
  · cases h
  · exact refuses_of_onLineEnd h

/-- Behind a name everything but meta data and the scope is refused. -/
theorem refuses_of_stepHeader {header : Header} (h : stepHeader header found = .error fault) :
    s.Refuses found fault := by
  unfold stepHeader at h
  split at h
  · cases h
  · cases h
  · cases h
    exact .found rfl

/-- Behind meta data everything but the scope is refused. -/
theorem refuses_of_stepOpening {body : Body} (h : stepOpening body found = .error fault) :
    s.Refuses found fault := by
  unfold stepOpening at h
  split at h
  · cases h
  · cases h
    exact .found rfl

/-- Behind the name of a command everything but the scope and a type is refused. -/
theorem refuses_of_stepCommandForm {name : String} (h : stepCommandForm name found = .error fault) :
    s.Refuses found fault := by
  unfold stepCommandForm at h
  split at h
  · cases h
  · cases h
  · cases h
    exact .found rfl

/-- In brackets everything but a key and the end is refused. -/
theorem refuses_of_stepMetaKey {holder : MetaHolder} {read : Metadata}
    (h : stepMetaKey holder read found = .error fault) : s.Refuses found fault := by
  unfold stepMetaKey at h
  split at h
  · cases h
  · cases h
  · cases h
    exact .found rfl

/-- Behind a key everything but its value is refused. -/
theorem refuses_of_stepMetaValue {holder : MetaHolder} {read : Metadata} {key : String}
    (h : stepMetaValue holder read key found = .error fault) : s.Refuses found fault := by
  unfold stepMetaValue at h
  split at h
  · cases h
  · cases h
    exact .found rfl

/-- The number of a level is looked at here, and the level that it blames is that number. -/
theorem refuses_of_stepLodLevel {archetype : Archetype} (h : stepLodLevel archetype found = .error fault) :
    (lodLevel archetype).Refuses found fault := by
  refine refuses_of_onNumber h ?_
  rintro level rfl hlevel
  split at hlevel
  · cases hlevel
  · next hnext =>
    cases hlevel
    exact .lodLevel hnext

/-- On a line of a scope everything but meta data and the end is refused. -/
theorem refuses_of_stepEntry {e : Entry} (h : stepEntry e found = .error fault) : s.Refuses found fault := by
  unfold stepEntry at h
  split at h
  · cases h
  · exact refuses_of_onLineEnd h

/-- Every fault of a step is one of these, provided that what was granted to the state holds still. -/
theorem refuses_of_step (h : s.step host draft place found = .error fault) (hs : s.Granted draft) :
    s.Refuses found fault := by
  cases s with
  | between => exact refuses_of_stepBetween h
  | namespaceMore => exact refuses_of_stepNamespaceMore h
  | declarationName => exact refuses_of_stepName h
  | header => exact refuses_of_stepHeader h
  | opening => exact refuses_of_stepOpening h
  | commandForm => exact refuses_of_stepCommandForm h
  | metaKey => exact refuses_of_stepMetaKey h
  | metaValue => exact refuses_of_stepMetaValue h
  | inBody body => exact refuses_of_stepBody h (hs body rfl)
  | lodLevel => exact refuses_of_stepLodLevel h
  | entry => exact refuses_of_stepEntry h
  | namespaceFirst | namespacePart | protocolName | commandReturn | fieldType =>
    exact refuses_of_onSymbol h fun _ _ hnext => by cases hnext
  | constantValue => exact refuses_of_onNumber h fun _ _ hnext => by cases hnext
  | protocolNameEnd | commandEnd | entryEnd => exact refuses_of_onLineEnd h

end State

/-! ## Parsers -/

namespace Parser

variable {host : HostTypes} {place : Position} {found : Option Lexeme} {p q : Parser} {ts : List Token}

/-- What is declared was granted, so it is never refused. -/
theorem exists_apply_of_granted {effect : Effect} {draft : Draft} (uses : Array FieldUse)
    (h : ∀ x more, effect = .declare x more → ∃ index, draft.admit? x.kind x.name = .ok index) :
    ∃ after, apply effect draft uses = .ok after := by
  cases effect with
  | nothing | setNamespace | setName => exact ⟨_, rfl⟩
  | declare x more =>
    obtain ⟨index, hindex⟩ := h x more rfl
    simp [apply, Draft.add, hindex]

/-- A parser that is fed keeps what was granted; between declarations there is nothing to keep. -/
theorem granted_of_feed (hp : p.state.Granted p.draft) (h : p.feed host place found = .ok q) :
    q.state.Granted q.draft := by
  obtain ⟨move, hstep, happly, hstate⟩ := feed_eq_ok_iff.1 h
  rcases (State.step_eq_ok_iff.1 hstep).granted hp with ⟨heffect, hgranted⟩ | ⟨hbetween, -⟩
  · rw [heffect] at happly
    obtain ⟨hdraft, -⟩ := Prod.mk.inj (Except.ok.inj happly)
    rw [← hstate, ← hdraft]
    exact hgranted
  · rw [← hstate, hbetween]
    exact State.granted_of_scope?_eq_none rfl

/-- Along a parse everything that was granted holds still. -/
theorem granted_of_feedTokens (h : start.feedTokens host ts = .ok p) : p.state.Granted p.draft :=
  feedTokens_induction (P := fun _ p => p.state.Granted p.draft) (State.granted_of_scope?_eq_none rfl)
    (fun _ _ _ _ _ hmid hnext => granted_of_feed hmid hnext) h

/-- A parser finds the faults of its machine and no others: what is complete is taken. -/
theorem refuses_of_feed {fault : ParseFault} (hp : p.state.Granted p.draft)
    (h : p.feed host place found = .error fault) : p.state.Refuses found fault := by
  obtain ⟨draft, uses, state⟩ := p
  simp only [feed] at h
  split at h
  · next hstep =>
    cases h
    exact State.refuses_of_step hstep hp
  · next move hstep =>
    -- The move would be made, so only its effect could be refused, and what it declares was granted.
    exfalso
    have hadmitted : ∀ x more, move.effect = .declare x more →
        ∃ index, draft.admit? x.kind x.name = .ok index := by
      rcases (State.step_eq_ok_iff.1 hstep).granted hp with ⟨heffect, -⟩ | ⟨-, hdeclares⟩
      · intro x more hdeclare
        cases heffect.symm.trans hdeclare
      · exact hdeclares
    obtain ⟨after, hafter⟩ := exists_apply_of_granted uses hadmitted
    rw [hafter] at h
    cases h

end Parser

end EntitySchema
