import EntitySchema.Proofs.Parser.Accepts
import EntitySchema.Proofs.Parser.Transitions
import Mathlib.Data.List.Forall2
/-!
  Where the types of fields are written.

  The types of component fields are judged when the whole source has been read, and by then the parser has
  nothing left of their lines but names and places.  Here these are followed back: `Token.TypeAt h component f
  place` says that among the tokens `h` the type of the field `f` stands at `place`, as the second word of the
  line of `f` in the scope of its component,

      … component name [ … ] { line … line   f.name  f.typeName …

  with so many lines in front as the index of `f` says.

  While the scope of a component is open, its state knows what was read of it.  `State.Follows h` says that
  the tokens `h` end with just that.  It is kept by every move (`Moves.follows`), one case for each: a name
  and a type are put behind the tokens, and a line that ends is one more line of its scope
  (`Entry.follows_close`).

  When the component is complete, its fields become uses of types, in order and at their places
  (`FieldOwner.isOf_uses`).  So the uses of a parser are those of the fields of all components, `UsesFollow`,
  along a parse (`follows_of_feedTokens`) and at its end (`usesFollow_of_feedEnd`).
-/

namespace EntitySchema

/-- The lexemes of tokens. -/
def Token.lexemes (h : List Token) : List Lexeme := h.map (·.lexeme)

/-- Lexemes stand in the order of their tokens. -/
@[simp] theorem Token.lexemes_append (h more : List Token) :
    Token.lexemes (h ++ more) = Token.lexemes h ++ Token.lexemes more := List.map_append

/-- The first token has the first lexeme. -/
@[simp] theorem Token.lexemes_cons (t : Token) (h : List Token) :
    Token.lexemes (t :: h) = t.lexeme :: Token.lexemes h := rfl

/-- No tokens have no lexemes. -/
@[simp] theorem Token.lexemes_nil : Token.lexemes [] = [] := rfl

/-! ## Types and their places -/

/-- A whole description, the first line of a component, and so many lines of its scope. -/
def BehindFields (component : String) (count : Nat) (xs : List Lexeme) : Prop :=
  ∃ (cs : List Clause) (above : List Lexeme) (pairs? : Option Pairs) (lines : List FieldLine),
    Program cs above ∧ lines.length = count ∧
      xs = above ++ .symbol "component" :: .symbol component :: Pairs.bracketed pairs? ++
        .openScope :: lines.flatMap FieldLine.lexemes

/-- The type of a field stands at the place: as the second word of its line, in the scope of its component. -/
def Token.TypeAt (h : List Token) (component : String) (f : Field) (place : Position) : Prop :=
  ∃ (front rest : List Token) (namePlace : Position),
    h = front ++ ⟨.symbol f.name, namePlace⟩ :: ⟨.symbol f.typeName, place⟩ :: rest ∧
      BehindFields component f.index (Token.lexemes front)

/-- More tokens behind it leave a type where it stands. -/
theorem Token.TypeAt.append {h : List Token} {component : String} {f : Field} {place : Position}
    (ht : Token.TypeAt h component f place) (more : List Token) :
    Token.TypeAt (h ++ more) component f place := by
  obtain ⟨front, rest, namePlace, rfl, hfront⟩ := ht
  exact ⟨front, rest ++ more, namePlace, by simp, hfront⟩

/-- The use is that of the field in the component. -/
structure FieldUse.IsOf (h : List Token) (u : FieldUse) (x : String × Field) : Prop where
  /-- It names the component. -/
  component : u.component = x.1
  /-- It names the type of the field. -/
  typeName : u.typeName = x.2.typeName
  /-- It is placed where the type is written. -/
  place : Token.TypeAt h x.1 x.2 u.position

/-- More tokens behind it leave a use what it is. -/
theorem FieldUse.IsOf.append {h : List Token} {u : FieldUse} {x : String × Field} (hu : u.IsOf h x)
    (more : List Token) : u.IsOf (h ++ more) x :=
  ⟨hu.component, hu.typeName, hu.place.append more⟩

/-- The fields of the component, each with the name of the component. -/
def Component.ownFields (c : Component) : List (String × Field) := c.fields.map fun f => (c.name, f)

/-- The fields of the declaration, if it is a component. -/
def Declaration.componentFields : Declaration → List (String × Field)
  | component c => c.ownFields
  | _ => []

/-- The fields of all components, in order. -/
def Protocol.componentFields (r : Protocol) : List (String × Field) :=
  r.components.toList.flatMap Component.ownFields

/-- A component that is added brings its fields, and nothing else brings any. -/
theorem Protocol.componentFields_add (r : Protocol) (x : Declaration) :
    (r.add x).componentFields = r.componentFields ++ x.componentFields := by
  cases x <;> simp [componentFields, add, append, Declaration.componentFields, Component.ownFields]

/-! ## What a state knows of the tokens -/

/-- The fields were read behind one another, and their types stand at their places. -/
def FieldOwner.Follows (h : List Token) (read : Array PlacedField) : FieldOwner → Prop
  | component name _ => BehindFields name read.size (Token.lexemes h) ∧
      ∀ f ∈ read, Token.TypeAt h name f.field f.typePosition
  | event _ _ | type _ | buffer _ | command _ => True

/-- The line of the field is the last one. -/
def Entry.Follows (h : List Token) : Entry → Prop
  | field owner read name typeName place => ∃ (front : List Token) (namePlace : Position),
      h = front ++ [⟨.symbol name, namePlace⟩, ⟨.symbol typeName, place⟩] ∧ owner.Follows front read
  | constant _ _ _ _ | item _ _ _ _ => True

/-- The name of the component comes last, behind its keyword. -/
def Header.Follows (h : List Token) : Header → Prop
  | component name => ∃ (cs : List Clause) (above : List Lexeme), Program cs above ∧
      Token.lexemes h = above ++ [.symbol "component", .symbol name]
  | event _ | archetype _ => True

/-- What the meta data belongs to comes last. -/
def MetaHolder.Follows (h : List Token) : MetaHolder → Prop
  | header x => x.Follows h
  | entry e => e.Follows h

/-- The first line of the component comes last. -/
def Body.Opens (h : List Token) : Body → Prop
  | fields (.component name _) read => read = #[] ∧
      ∃ (cs : List Clause) (above : List Lexeme) (pairs? : Option Pairs), Program cs above ∧
        Token.lexemes h = above ++ .symbol "component" :: .symbol name :: Pairs.bracketed pairs?
  | _ => True

/-- The lines of the scope come last. -/
def Body.Follows (h : List Token) : Body → Prop
  | fields owner read => owner.Follows h read
  | constants _ _ | lods _ | items _ _ _ => True

/-- The tokens end with what the state has read of the open component, and of the open meta data of any
declaration.  Of other declarations the state knows the keyword, if it comes last, and of a level of detail the
word in front of its number. -/
def State.Follows (h : List Token) : State → Prop
  | declarationName kind => ∃ (cs : List Clause) (front : List Token) (place : Position),
      h = front ++ [⟨.symbol kind.keyword, place⟩] ∧ Program cs (Token.lexemes front)
  | header x => x.Follows h
  | opening b => b.Opens h
  | metaKey holder read => ∃ (front more : List Token) (pairs : Pairs),
      h = front ++ more ∧ holder.Follows front ∧ Token.lexemes more = .openMeta :: pairs.lexemes ∧
        read = Metadata.ofList pairs
  | metaValue holder read key => ∃ (front more : List Token) (pairs : Pairs),
      h = front ++ more ∧ holder.Follows front ∧
        Token.lexemes more = .openMeta :: pairs.lexemes ++ [.symbol key] ∧ read = Metadata.ofList pairs
  | inBody b => b.Follows h
  | fieldType owner read name => ∃ (front : List Token) (place : Position),
      h = front ++ [⟨.symbol name, place⟩] ∧ owner.Follows front read
  | lodLevel _ => ∃ (front : List Token) (place : Position), h = front ++ [⟨.symbol "lod", place⟩]
  | entry e => e.Follows h
  | entryEnd e _ => ∃ (front more : List Token) (pairs : Pairs),
      h = front ++ more ∧ e.Follows front ∧ Token.lexemes more = Pairs.bracketed (some pairs)
  | between | namespaceFirst | namespaceMore _ | namespacePart _ | protocolName | protocolNameEnd _
  | commandForm _ | commandReturn _ _ | commandEnd _ _ _ | constantValue _ _ _ => True

section

variable {h : List Token} {host : HostTypes} {draft : Draft} {place : Position} {s : State}
  {x : Lexeme} {move : Move}

/-- A first line with meta data opens its scope. -/
theorem Header.opens_body {header : Header} {front more : List Token} {pairs : Pairs} {metadata : Metadata}
    (hfront : header.Follows front) (hmore : Token.lexemes more = Pairs.bracketed (some pairs)) :
    (header.body metadata).Opens (front ++ more) := by
  cases header with
  | component name =>
    obtain ⟨cs, above, habove, hlexemes⟩ := hfront
    exact ⟨rfl, cs, above, some pairs, habove, by simp [hlexemes, hmore]⟩
  | event | archetype => trivial

/-- A first line without meta data opens its scope. -/
theorem Header.opens_body_of_follows {header : Header} (hh : header.Follows h) :
    (header.body .empty).Opens h := by
  cases header with
  | component name =>
    obtain ⟨cs, above, habove, hlexemes⟩ := hh
    exact ⟨rfl, cs, above, none, habove, hlexemes⟩
  | event | archetype => trivial

/-- In a scope that has just been opened no line was read. -/
theorem Body.follows_of_opens {b : Body} (hb : b.Opens h) (place : Position) :
    b.Follows (h ++ [⟨.openScope, place⟩]) := by
  cases b with
  | fields owner read =>
    cases owner with
    | component name =>
      obtain ⟨rfl, cs, above, pairs?, habove, hlexemes⟩ := hb
      refine ⟨⟨cs, above, pairs?, [], habove, rfl, by simp [hlexemes]⟩, ?_⟩
      simp
    | event | type | buffer | command => trivial
  | constants | lods | items => trivial

/-- A line that ends is one more line of its scope. -/
theorem Entry.follows_close {e : Entry} {front more : List Token} {metadata : Metadata}
    (pairs? : Option Pairs) (he : e.Follows front)
    (hmore : Token.lexemes more = Pairs.bracketed pairs? ++ [.endLine]) :
    (e.close metadata).Follows (front ++ more) := by
  cases e with
  | field owner read name typeName place =>
    cases owner with
    -- The scope has one line more, and the field on it stands where it was read.
    | component component =>
      obtain ⟨above, namePlace, rfl, ⟨cs, start, pairs, lines, hstart, hlines, hlexemes⟩, hread⟩ := he
      have hscope : BehindFields component read.size (Token.lexemes above) :=
        ⟨cs, start, pairs, lines, hstart, hlines, hlexemes⟩
      constructor
      · refine ⟨cs, start, pairs, lines ++ [⟨name, typeName, pairs?⟩], hstart, by simp [hlines], ?_⟩
        simp [hlexemes, hmore, FieldLine.lexemes]
      · intro f hf
        rcases Array.mem_push.1 hf with hf | rfl
        · rw [List.append_assoc]
          exact (hread f hf).append _
        · exact ⟨above, more, namePlace, by simp, hscope⟩
    | event | type | buffer | command => trivial
  | constant | item => trivial

namespace State

/-- What a state knows of the tokens, the next state knows of one token more.  Between declarations there is a
whole description. -/
theorem Moves.follows (hmove : Moves host draft place s (some x) move) (hs : s.Follows h)
    (hbetween : s = .between → ∃ cs, Program cs (Token.lexemes h)) :
    move.state.Follows (h ++ [⟨x, place⟩]) := by
  cases hmove with
  | blank | namespaceFirst | namespaceDot | namespacePart | namespaceEnd | protocolName | protocolNameEnd
  | commandOpens | parameterType | returnType | signatureEnd | constantName | constantValue | lodLevel | item
  | fieldsClose | constantsClose | lodsClose | itemsClose => trivial
  -- Between declarations a whole description was read, and the keyword comes behind it.
  | @keyword k =>
    cases k with
    | namespaceLine | nameLine => trivial
    | declaration kind =>
      obtain ⟨cs, hprogram⟩ := hbetween rfl
      exact ⟨cs, h, place, rfl, hprogram⟩
  | @declarationName kind name =>
    obtain ⟨cs, front, keywordPlace, rfl, hprogram⟩ := hs
    cases kind with
    | component => exact ⟨cs, Token.lexemes front, hprogram, by simp [Kind.keyword]⟩
    | type | archetype | event | command | enumeration | buffer => trivial
  | headerMeta => exact ⟨h, [_], [], rfl, hs, rfl, rfl⟩
  | headerOpens => exact Body.follows_of_opens (Header.opens_body_of_follows hs) place
  | opens => exact Body.follows_of_opens hs place
  -- The pairs that were read stand behind the bracket, and a key behind them.
  | metaKey =>
    obtain ⟨front, more, pairs, rfl, hfront, hmore, hread⟩ := hs
    exact ⟨front, more ++ [_], pairs, List.append_assoc .., hfront, by simp [hmore], hread⟩
  | @metaValue holder read key value =>
    obtain ⟨front, more, pairs, rfl, hfront, hmore, rfl⟩ := hs
    refine ⟨front, more ++ [_], pairs ++ [(key, value)], List.append_assoc .., hfront, ?_,
      (Metadata.ofList_concat pairs key value).symm⟩
    simp [hmore, Pairs.lexemes]
  | @metaEnd holder =>
    obtain ⟨front, more, pairs, rfl, hfront, hmore, -⟩ := hs
    -- The closing bracket makes the pairs meta data, and what they belong to stood in front.
    have hbrackets : Token.lexemes (more ++ [⟨.closeMeta, place⟩]) = Pairs.bracketed (some pairs) := by
      simp [hmore, Pairs.bracketed]
    rw [List.append_assoc]
    cases holder with
    | header => exact Header.opens_body hfront hbrackets
    | entry => exact ⟨front, _, pairs, rfl, hfront, hbrackets⟩
  | fieldName => exact ⟨h, place, rfl, hs⟩
  -- The place of the type is that of the token that is read now.
  | fieldType =>
    obtain ⟨front, namePlace, rfl, hfront⟩ := hs
    exact ⟨front, namePlace, by simp, hfront⟩
  | lod => exact ⟨h, place, rfl⟩
  | entryMeta => exact ⟨h, [_], [], rfl, hs, rfl, rfl⟩
  | entryEnds hend =>
    obtain rfl : x = .endLine := by simpa [Lexeme.EndsLine] using hend
    exact Entry.follows_close none hs rfl
  | entryEnd hend =>
    obtain rfl : x = .endLine := by simpa [Lexeme.EndsLine] using hend
    obtain ⟨front, more, pairs, rfl, hfront, hmore⟩ := hs
    rw [List.append_assoc]
    exact Entry.follows_close (some pairs) hfront (by simp [hmore])

end State

/-! ## The uses of types -/

/-- The uses that are declared are those of the declared fields. -/
def Effect.Follows (h : List Token) : Effect → Prop
  | declare x uses => List.Forall₂ (FieldUse.IsOf h) uses x.componentFields
  | nothing | setNamespace _ | setName _ => True

/-- The uses that an owner of fields declares are those of the fields that it declares; only a component
declares any. -/
theorem FieldOwner.isOf_uses {owner : FieldOwner} {read : Array PlacedField} (ho : owner.Follows h read) :
    List.Forall₂ (FieldUse.IsOf h) (owner.uses read.toList)
      (owner.declaration (read.toList.map (·.field))).componentFields := by
  cases owner with
  | component name metadata =>
    simp only [uses, declaration, Declaration.componentFields, Component.ownFields, List.map_map]
    rw [List.forall₂_map_left_iff, List.forall₂_map_right_iff, List.forall₂_same]
    exact fun f hf => ⟨rfl, rfl, ho.2 f (Array.mem_toList_iff.1 hf)⟩
  | event | type | buffer | command => exact .nil

/-- What a move declares is what its state has read.  Only the end of a scope of fields declares uses. -/
theorem State.Moves.effect_follows {found : Option Lexeme} (hmove : Moves host draft place s found move)
    (hs : s.Follows h) : move.effect.Follows h := by
  cases hmove with
  | fieldsClose => exact FieldOwner.isOf_uses hs
  | signatureEnd | constantsClose | lodsClose => exact .nil
  | blank | keyword | namespaceFirst | namespaceDot | namespacePart | namespaceEnd | protocolName
  | protocolNameEnd | declarationName | headerMeta | headerOpens | opens | commandOpens | parameterType
  | returnType | metaKey | metaValue | metaEnd | fieldName | fieldType | constantName | constantValue | lod
  | lodLevel | item | entryMeta | entryEnds | entryEnd | itemsClose => trivial

/-- The end of the source completes no component. -/
theorem State.Moves.effect_follows_of_none (hmove : Moves host draft place s none move) :
    move.effect.Follows h := by
  cases hmove with
  | signatureEnd => exact .nil
  | blank | namespaceEnd | protocolNameEnd | entryEnds | entryEnd => trivial

end

/-! ## Parsers -/

namespace Parser

variable {host : HostTypes} {place : Position} {p q : Parser} {h ts : List Token}

/-- The uses of types are those of the fields of all components, in order. -/
def UsesFollow (h : List Token) (p : Parser) : Prop :=
  List.Forall₂ (FieldUse.IsOf h) p.uses.toList p.draft.protocol.componentFields

/-- A parser that is fed adds the uses of what it declares, if it declares something. -/
theorem usesFollow_of_feed {found : Option Lexeme} (hp : p.UsesFollow h)
    (heffect : ∀ move, State.Moves host p.draft place p.state found move → move.effect.Follows h)
    (hfeed : p.feed host place found = .ok q) : q.UsesFollow h := by
  obtain ⟨move, hstep, happly, -⟩ := feed_eq_ok_iff.1 hfeed
  have hfollows := heffect move (State.step_eq_ok_iff.1 hstep)
  unfold UsesFollow
  cases hmove : move.effect with
  | nothing | setNamespace | setName =>
    rw [hmove] at happly
    obtain ⟨hdraft, huses⟩ := Prod.mk.inj (Except.ok.inj happly)
    rw [← hdraft, ← huses]
    exact hp
  | declare x more =>
    rw [hmove] at happly hfollows
    -- What is declared is put behind the components that are there, and so are its uses.
    have hsettle : settle? p.draft p.uses (.declare x more) = some ⟨q.draft, q.uses, .between⟩ := by
      simp [settle?, happly]
    obtain ⟨-, hq⟩ := settle?_declare_eq_some_iff.1 hsettle
    obtain ⟨hdraft, huses, -⟩ := Parser.mk.inj hq
    rw [hdraft, huses, Array.toList_append, show (p.draft.push x).protocol = p.draft.protocol.add x from rfl,
      Protocol.componentFields_add]
    exact List.rel_append hp hfollows

/-- Between declarations a whole description has been read. -/
theorem exists_program_of_between (hp : start.feedTokens host ts = .ok p) (hstate : p.state = .between) :
    ∃ cs, Program cs (Token.lexemes (Token.withoutComments ts)) := by
  obtain ⟨draft, uses, state⟩ := p
  obtain rfl : state = .between := hstate
  have hread := (feedTokens_eq_ok_iff host start _ ts).1 ⟨_, hp, rfl⟩
  rw [start_unplaced] at hread
  obtain ⟨cs, hprogram, -⟩ := completes_between_iff.1
    (show start.Completes host (Token.meaning ts) _ from ⟨_, _, hread, rfl, rfl⟩)
  exact ⟨cs, hprogram⟩

/-- Along a parse the tokens end with what the parser has read of the open declaration, and the types that it
has yet to look at are written where it says. -/
theorem follows_of_feedTokens (hp : start.feedTokens host ts = .ok p) :
    p.state.Follows (Token.withoutComments ts) ∧ p.UsesFollow (Token.withoutComments ts) := by
  refine feedTokens_induction (p := start) (P := fun h p => p.state.Follows h ∧ p.UsesFollow h)
    ⟨trivial, .nil⟩ ?_ hp
  rintro ts t mid next hmid ⟨hstate, huses⟩ hnext
  obtain ⟨move, hstep, -, hmove⟩ := feed_eq_ok_iff.1 hnext
  constructor
  · rw [← hmove]
    exact (State.step_eq_ok_iff.1 hstep).follows hstate (exists_program_of_between hmid)
  · have hmore := usesFollow_of_feed huses (fun move hmove => hmove.effect_follows hstate) hnext
    exact hmore.imp fun u x hu => hu.append [t]

/-- At the end of the source no use is added. -/
theorem usesFollow_of_feedEnd (hp : p.UsesFollow h) (hend : p.feedEnd host place = .ok q) :
    q.UsesFollow h := by
  unfold feedEnd at hend
  split at hend
  · cases hend
  next mid hmid =>
  split at hend
  · cases hend
  next last hlast =>
  cases hend
  have husesMid := usesFollow_of_feed hp (fun move hmove => hmove.effect_follows_of_none) hmid
  exact usesFollow_of_feed husesMid (fun move hmove => hmove.effect_follows_of_none) hlast

end Parser

end EntitySchema
