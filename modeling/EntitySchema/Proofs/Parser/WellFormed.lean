import EntitySchema.Proofs.OrderedMap
import EntitySchema.Proofs.Parser.Described
import EntitySchema.Proofs.Parser.Unambiguous
import Mathlib.Data.List.Forall2
import Mathlib.Data.List.Nodup
/-!
  What holds of every protocol that was read.

  The draft behind a parser only ever grows by declarations that it admits, and those are what the clauses of
  the source describe.  So a protocol `r` that was read is `WellFormed`:

      indices       r.components[i].index = i, and so for archetypes, events and commands
      members       fields, constants and levels of detail are numbered from zero
      names         no kind has a name twice
      lookups       r.find? k name = some d  ↔  d is a declaration of kind k with that name
      ids           a.id = Fnv.wireId a.name for archetypes, e.id = Fnv.wireId e.name for events
      meta data     no key stands twice in it

  Members are numbered because a clause numbers them by their places (`map_index_mapIdx`), and ids are those
  that `Archetype.named` and `Event.named` give, since clauses describe them by these
  (`Clause.id_of_archetype`, `Clause.id_of_event`).  Lookups are exact because names are there once and the
  tables are `Indexed`.

  Its items can be followed back to the lines they come from (`Item.Refers`), to a component declared above
  the archetype or to a type of the host.

  Main statement: `parse_wellFormed`.
-/

namespace EntitySchema

/-! ## Well-formed trees -/

namespace Declaration

/-- The fields of a declaration of any kind. -/
def fields : Declaration → List Field
  | component c => c.fields
  | event e => e.fields
  | type r | buffer r => r.fields
  | command c => c.fields
  | archetype _ | enumeration _ => []

/-- The constants of an enumeration. -/
def constants : Declaration → List Constant
  | enumeration e => e.constants
  | _ => []

/-- All meta data within a declaration. -/
def blocks : Declaration → List Metadata
  | component c => c.metadata :: c.fields.map (·.metadata)
  | event e => e.metadata :: e.fields.map (·.metadata)
  | type r | buffer r => r.fields.map (·.metadata)
  | command c => c.fields.map (·.metadata)
  | enumeration e => e.constants.map (·.metadata)
  | archetype a => a.metadata :: a.lods.flatMap fun lod => lod.items.map (·.metadata)

/-- The members of the declaration are in order. -/
structure WellFormed (d : Declaration) : Prop where
  /-- Fields are numbered by their places. -/
  fields : d.fields.map (·.index) = List.range d.fields.length
  /-- Constants are numbered by their places. -/
  constants : d.constants.map (·.index) = List.range d.constants.length
  /-- No meta data has a key twice. -/
  keys : ∀ m ∈ d.blocks, m.keys.Nodup

end Declaration

/-- The declarations of the protocol are in order, and they are found by their names. -/
structure Protocol.WellFormed (r : Protocol) : Prop where
  /-- The index of every declaration is its place among its kind. -/
  numbered : r.Numbered
  /-- The members of every declaration are in order. -/
  declarations : ∀ k, ∀ d ∈ r.declarations k, d.WellFormed
  /-- No kind has a name twice. -/
  names_nodup : ∀ k, (r.names k).Nodup
  /-- A name is known exactly if a declaration has it. -/
  contains_iff : ∀ k name, r.contains k name ↔ ∃ d ∈ r.declarations k, d.name = name
  /-- A name finds exactly the declaration that has it. -/
  find?_iff : ∀ k name d, r.find? k name = some d ↔ d ∈ r.declarations k ∧ d.name = name
  /-- Levels of detail are counted from zero. -/
  levels : ∀ a ∈ r.archetypes, a.LevelsInOrder
  /-- The id of an archetype is that of its name. -/
  archetype_ids : ∀ a ∈ r.archetypes, a.id = Fnv.wireId a.name
  /-- The id of an event is that of its name. -/
  event_ids : ∀ e ∈ r.events, e.id = Fnv.wireId e.name

/-- The item is what its line says, in a protocol where the components `above` come before the line. -/
def Item.Refers (host : HostTypes) (r : Protocol) (above : List String) (item : Item)
    (line : ItemLine) : Prop :=
  match item.type with
  | .component index => above[index]? = some line.name ∧
      ∃ h : index < r.components.size, r.components[index].name = line.name
  | .host name => name = line.name ∧ host.allowsComponent name ∧ name ∉ above

/-! ## Described declarations are well formed -/

/-- Meta data is the map of the pairs that it stands for. -/
theorem Pairs.isMapOf_metadata (pairs? : Option Pairs) :
    (metadata pairs?).IsMapOf (pairs?.getD []) :=
  Metadata.isMapOf_ofList _

/-- What is numbered by its place has the places for its indices. -/
theorem map_index_mapIdx {α β : Type} {f : Nat → α → β} {index : β → Nat} (h : ∀ i a, index (f i a) = i)
    (as : List α) : (as.mapIdx f).map index = List.range (as.mapIdx f).length := by
  refine List.ext_getElem (by simp) fun i _ _ => ?_
  simp [h]

/-- What does not depend on the places of members is the same without them. -/
theorem map_mapIdx_of_eq {α β γ : Type} {f : Nat → α → β} {g : β → γ} {g' : α → γ}
    (h : ∀ i a, g (f i a) = g' a) (as : List α) : (as.mapIdx f).map g = as.map g' := by
  refine List.ext_getElem (by simp) fun i _ _ => ?_
  simp [h]

namespace Clause

variable {before cs : List Clause} {c : Clause} {d : Declaration}

/-- The meta data of a declaration is that of its clause, block by block. -/
theorem blocks_of_declaration? (h : c.declaration? before = some d) :
    d.blocks = c.blocks.map Pairs.metadata := by
  have hfields : ∀ lines : List FieldLine, (lines.mapIdx FieldLine.field).map (·.metadata) =
      (lines.map (·.pairs?)).map Pairs.metadata := by
    intro lines
    rw [List.map_map]
    refine map_mapIdx_of_eq (fun _ _ => ?_) lines
    rfl
  cases c with
  | namespaceLine | nameLine => cases h
  | component name pairs? lines | event name pairs? lines =>
    cases h
    exact congrArg (Pairs.metadata pairs? :: ·) (hfields lines)
  | type name lines | buffer name lines | command name lines =>
    cases h
    exact hfields lines
  | signature =>
    cases h
    rfl
  | enumeration name lines =>
    cases h
    rw [Declaration.blocks, blocks, List.map_map]
    refine map_mapIdx_of_eq (fun _ _ => ?_) lines
    rfl
  | archetype name pairs? lods =>
    cases h
    refine congrArg (Pairs.metadata pairs? :: ·) ?_
    have hitems : (lods.mapIdx (LodBlock.lod (names .component before))).map
          (fun lod => lod.items.map (·.metadata)) =
        lods.map fun block => (block.items.map (·.pairs?)).map Pairs.metadata := by
      refine map_mapIdx_of_eq (fun _ block => ?_) lods
      rw [LodBlock.lod, List.map_map, List.map_map]
      rfl
    rw [List.flatMap_def, hitems, List.map_flatMap, List.flatMap_def]

/-- What a clause describes is well formed. -/
theorem wellFormed_of_declaration? (h : c.declaration? before = some d) : d.WellFormed := by
  have hkeys : ∀ m ∈ d.blocks, m.keys.Nodup := by
    intro m hm
    rw [blocks_of_declaration? h] at hm
    obtain ⟨pairs?, -, rfl⟩ := List.mem_map.1 hm
    exact (Pairs.isMapOf_metadata pairs?).keys_nodup
  have hfields : ∀ lines : List FieldLine, (lines.mapIdx FieldLine.field).map (·.index) =
      List.range (lines.mapIdx FieldLine.field).length :=
    map_index_mapIdx fun _ _ => rfl
  cases c with
  | namespaceLine | nameLine => cases h
  | component name pairs? lines | event name pairs? lines =>
    cases h
    exact ⟨hfields lines, rfl, hkeys⟩
  | type name lines | buffer name lines | command name lines =>
    cases h
    exact ⟨hfields lines, rfl, hkeys⟩
  | enumeration name lines =>
    cases h
    exact ⟨rfl, map_index_mapIdx (fun _ _ => rfl) lines, hkeys⟩
  | signature | archetype =>
    cases h
    exact ⟨rfl, rfl, hkeys⟩

/-- Clauses describe archetypes as `Archetype.named` makes them, whatever levels are added then. -/
theorem id_of_archetype {a : Archetype} (h : c.declaration? before = some (.archetype a)) :
    a.id = Fnv.wireId a.name := by
  cases c with
  | archetype name pairs? lods =>
    cases h
    rfl
  | namespaceLine | nameLine | component | event | type | buffer | enumeration | signature | command => cases h

/-- Clauses describe events as `Event.named` makes them. -/
theorem id_of_event {e : Event} (h : c.declaration? before = some (.event e)) : e.id = Fnv.wireId e.name := by
  cases c with
  | event name pairs? fields =>
    cases h
    rfl
  | namespaceLine | nameLine | component | archetype | type | buffer | enumeration | signature | command =>
    cases h

/-- A declaration is described by one of the clauses. -/
theorem exists_clause_of_mem_declarationsBelow (h : d ∈ declarationsBelow before cs) :
    ∃ front c back, cs = front ++ c :: back ∧ c.declaration? (before ++ front) = some d := by
  induction cs generalizing before with
  | nil => cases h
  | cons c cs ih =>
    rw [declarationsBelow, List.mem_append] at h
    rcases h with h | h
    · exact ⟨[], c, cs, rfl, by simpa using h⟩
    · obtain ⟨front, e, back, rfl, he⟩ := ih h
      exact ⟨c :: front, e, back, rfl, by simpa using he⟩

/-- So is every declaration of a kind. -/
theorem exists_clause_of_mem_declarations {k : Kind} (h : d ∈ declarations k cs) :
    ∃ before c after, cs = before ++ c :: after ∧ c.declaration? before = some d := by
  simpa using exists_clause_of_mem_declarationsBelow (List.mem_filter.1 h).1

end Clause

/-! ## Lookups -/

namespace Protocol

/-- A name is known exactly if a declaration has it. -/
theorem contains_iff_exists {r : Protocol} (hr : r.Indexed) {k : Kind} {name : String} :
    r.contains k name ↔ ∃ d ∈ r.declarations k, d.name = name := by
  rw [contains_iff hr]
  simp [names]

/-- Where no name is there twice, a name finds exactly the declaration that has it. -/
theorem find?_eq_some_iff {r : Protocol} (hr : r.Indexed) {k : Kind} (hnodup : (r.names k).Nodup)
    {name : String} {d : Declaration} :
    r.find? k name = some d ↔ d ∈ r.declarations k ∧ d.name = name := by
  constructor
  · intro hd
    obtain ⟨i, -, hat, hname⟩ := exists_place_of_find? hr hd
    exact ⟨Array.mem_of_getElem? hat, hname⟩
  · rintro ⟨hd, rfl⟩
    have hmem : d.name ∈ r.names k := List.mem_map_of_mem (Array.mem_toList_iff.2 hd)
    obtain ⟨found, hfound⟩ := Option.isSome_iff_exists.1 ((isSome_find?_iff hr).2 hmem)
    obtain ⟨i, -, hat, hname⟩ := exists_place_of_find? hr hfound
    -- What is found has the same name, and no other declaration of the kind has it.
    have hsame := List.inj_on_of_nodup_map hnodup (Array.mem_toList_iff.2 (Array.mem_of_getElem? hat))
      (Array.mem_toList_iff.2 hd) hname
    rw [hfound, hsame]

end Protocol

/-! ## Items -/

/-- Members at their places correspond to the lines they come from. -/
theorem forall₂_mapIdx {α β : Type} {f : Nat → α → β} {R : β → α → Prop} {as : List α}
    (h : ∀ i, ∀ a ∈ as, R (f i a) a) : List.Forall₂ R (as.mapIdx f) as := by
  rw [List.forall₂_iff_get]
  refine ⟨by simp, fun i _ hi => ?_⟩
  simpa using h i as[i] (List.getElem_mem hi)

/-- The items of an archetype are what their lines say. -/
theorem Item.refers_of_line {host : HostTypes} {r : Protocol} {above more : List String}
    (hnames : r.names .component = above ++ more) {line : ItemLine}
    (hknown : line.name ∈ above ∨ host.allowsComponent line.name) :
    (line.item above).Refers host r above line := by
  unfold Item.Refers ItemLine.item ItemType.named
  -- A component above is meant even if the host provides the name.
  by_cases hmem : line.name ∈ above
  · have hlt := List.idxOf_lt_length_iff.2 hmem
    have hat : above[above.idxOf line.name]? = some line.name := by
      rw [List.getElem?_eq_getElem hlt, List.getElem_idxOf]
    have hcomponents : r.components.toList.map (·.name) = above ++ more := by
      simpa [Protocol.names, Protocol.declarations, Function.comp_def, Declaration.name] using hnames
    have hsize : above.idxOf line.name < r.components.size := by
      have hlength := congrArg List.length hcomponents
      simp only [List.length_map, Array.length_toList, List.length_append] at hlength
      omega
    have hname : (r.components.toList.map (·.name))[above.idxOf line.name]? = some line.name := by
      rw [hcomponents, List.getElem?_append_left hlt, hat]
    simp only [hmem, if_true]
    refine ⟨hat, hsize, ?_⟩
    simpa [hsize] using hname
  · simp only [hmem, if_false]
    exact ⟨trivial, hknown.resolve_left hmem, not_false⟩

namespace Parser

variable {host : HostTypes} {cs : List Clause} {q : Parser}

/-- Every declaration that was built comes from a clause. -/
theorem exists_clause_of_built (h : cs.foldlM (take? host) start = some q) {hash : UInt32} {k : Kind}
    {d : Declaration} (hd : d ∈ (q.draft.finish hash).declarations k) :
    ∃ before c after, cs = before ++ c :: after ∧ c.declaration? before = some d := by
  rw [Draft.declarations_finish, ← Array.mem_toList_iff, (describes_of_built h).declarations] at hd
  exact Clause.exists_clause_of_mem_declarations hd

/-- What the parser has built is well formed. -/
theorem wellFormed_of_built (h : cs.foldlM (take? host) start = some q)
    (hcs : Admissible host cs) (hash : UInt32) : (q.draft.finish hash).WellFormed := by
  have hdescribes := describes_of_built h
  have hindexed := q.draft.indexed_finish hash
  have hnames : ∀ k, ((q.draft.finish hash).names k).Nodup := by
    intro k
    rw [Protocol.names, Draft.declarations_finish, show (q.draft.protocol.declarations k).toList.map _ =
      q.draft.protocol.names k from rfl, (names_of_built h).1]
    exact hcs.names_nodup k
  refine ⟨⟨hdescribes.numbered.components, hdescribes.numbered.archetypes, hdescribes.numbered.events,
    hdescribes.numbered.commands⟩, fun k d hd => ?_, hnames,
    fun k name => Protocol.contains_iff_exists hindexed,
    fun k name d => Protocol.find?_eq_some_iff hindexed (hnames k), fun a ha => ?_, fun a ha => ?_, fun e he => ?_⟩
  · obtain ⟨before, c, after, -, hc⟩ := exists_clause_of_built h hd
    exact Clause.wellFormed_of_declaration? hc
  -- Only a clause for an archetype describes one, with levels numbered by their places.
  · have hd : .archetype a ∈ (q.draft.finish hash).declarations .archetype := Array.mem_map_of_mem ha
    obtain ⟨before, c, after, -, hc⟩ := exists_clause_of_built h hd
    cases c with
    | archetype name pairs? blocks =>
      cases hc
      exact map_index_mapIdx (fun _ _ => rfl) blocks
    | namespaceLine | nameLine | component | event | type | buffer | enumeration | signature | command =>
      cases hc
  · have hd : .archetype a ∈ (q.draft.finish hash).declarations .archetype := Array.mem_map_of_mem ha
    obtain ⟨before, c, after, -, hc⟩ := exists_clause_of_built h hd
    exact Clause.id_of_archetype hc
  · have hd : .event e ∈ (q.draft.finish hash).declarations .event := Array.mem_map_of_mem he
    obtain ⟨before, c, after, -, hc⟩ := exists_clause_of_built h hd
    exact Clause.id_of_event hc

/-- Every archetype that was built comes from a clause, with the items of its lines. -/
theorem items_of_built (h : cs.foldlM (take? host) start = some q) (hcs : Admissible host cs)
    (hash : UInt32) : ∀ a ∈ (q.draft.finish hash).archetypes, ∃ before pairs? blocks after,
      cs = before ++ .archetype a.name pairs? blocks :: after ∧
      List.Forall₂ (fun lod block => List.Forall₂
        (Item.Refers host (q.draft.finish hash) (Clause.names .component before))
        lod.items block.items) a.lods blocks := by
  intro a ha
  have hd : .archetype a ∈ (q.draft.finish hash).declarations .archetype := Array.mem_map_of_mem ha
  obtain ⟨before, c, after, rfl, hc⟩ := exists_clause_of_built h hd
  cases c with
  | archetype name pairs? blocks =>
    cases hc
    have hnames : (q.draft.finish hash).names .component =
        Clause.names .component before ++ Clause.names .component (.archetype name pairs? blocks :: after) := by
      rw [← Clause.names_append]
      exact (names_of_built h).1 .component
    refine ⟨before, pairs?, blocks, after, rfl, forall₂_mapIdx fun i block hblock => ?_⟩
    rw [LodBlock.lod, List.forall₂_map_left_iff, List.forall₂_same]
    intro line hline
    exact Item.refers_of_line hnames
      (hcs.items before (.archetype name pairs? blocks) ⟨after, by simp⟩ block hblock line hline)
  | namespaceLine | nameLine | component | event | type | buffer | enumeration | signature | command =>
    cases hc

end Parser

/-- A protocol that was read is well formed.  The clauses `cs` of its source are determined by the tokens, and
they declare the names of the protocol.  Every archetype `a` is one of them, with the clauses `before` it: its
items are the components and host types that the item lines name, and components only if they are declared in
`before`. -/
theorem parse_wellFormed {host : HostTypes} {source : String} {r : Protocol}
    (h : parse host source = .ok r) :
    r.WellFormed ∧ ∃ ts cs, tokenize source = .ok ts ∧
      (∀ ds, Program ds (Token.meaning ts) ↔ ds = cs) ∧
      (∀ k, r.names k = Clause.names k cs) ∧
      ∀ a ∈ r.archetypes, ∃ before pairs? blocks after,
        cs = before ++ .archetype a.name pairs? blocks :: after ∧
        List.Forall₂ (fun lod block => List.Forall₂
          (Item.Refers host r (Clause.names .component before)) lod.items block.items) a.lods blocks := by
  obtain ⟨ts, q, hts, hq, hknown, rfl⟩ := Parser.parse_eq_ok_iff.1 h
  obtain ⟨cs, hprogram, hbuilt⟩ := Parser.completes_between_iff.1 hq
  have hcs := Parser.exists_built_iff.1 ⟨q, hbuilt, hknown⟩
  refine ⟨Parser.wellFormed_of_built hbuilt hcs _, ts, cs, hts, fun ds => ⟨fun hds => hds.unique hprogram,
    fun heq => heq ▸ hprogram⟩, fun k => ?_, Parser.items_of_built hbuilt hcs _⟩
  rw [← (Parser.names_of_built hbuilt).1]
  cases k <;> rfl

/-- An archetype with a component that is declared above it and a type of the host. -/
theorem parse_wellFormed_archetype :
    ∃ r, parse ⟨["T"], []⟩ "component A\n  x int\narchetype E\n  lod 0\n    A\n    T [k 'v']\n" = .ok r ∧
      r.WellFormed ∧ r.archetypes.toList.map (·.lods) =
        [[⟨0, [⟨.component 0, ⟨[]⟩⟩, ⟨.host "T", ⟨[("k", "v")]⟩⟩]⟩]] := by
  have hlods : (parse ⟨["T"], []⟩
      "component A\n  x int\narchetype E\n  lod 0\n    A\n    T [k 'v']\n").toOption.map
        (fun r => r.archetypes.toList.map (·.lods)) =
      some [[⟨0, [⟨.component 0, ⟨[]⟩⟩, ⟨.host "T", ⟨[("k", "v")]⟩⟩]⟩]] := by
    decide +kernel
  cases h : parse ⟨["T"], []⟩ "component A\n  x int\narchetype E\n  lod 0\n    A\n    T [k 'v']\n" with
  | ok r =>
    rw [h] at hlods
    exact ⟨r, rfl, (parse_wellFormed h).1, Option.some.inj hlods⟩
  | error e =>
    rw [h] at hlods
    cases hlods

end EntitySchema
