import EntitySchema.Proofs.Parser.Accepts
/-!
  What clauses describe.

  A clause describes at most one declaration, and what it describes can be written down from the clause and
  the clauses `before` it (`Clause.declaration?`).  With `k` for its kind,

      index      (names k before).length
      members    numbered by their places in the scope
      item       the place of its name among the components above, or else a type of the host
      meta data  the map of its pairs

  A parser builds its draft declaration by declaration, with indices and members counted along the way.
  `Describes p cs` relates the draft of `p` to the clauses `cs` that were taken: it has their declarations, of
  each kind in order, their namespace and their name, and its indices are places.  Taking one more clause
  keeps it (`Describes.take?`), so it holds of everything that is built (`describes_of_built`).

  The index of an item is looked up by its name, in the tables of the draft.  That it is the place of the name
  needs that no name is there twice (`Protocol.index_of_component?`).
-/

namespace EntitySchema

/-! ## Members of scopes -/

/-- The field of a line at a place. -/
def FieldLine.field (index : Nat) (line : FieldLine) : Field :=
  ⟨index, line.name, line.typeName, Pairs.metadata line.pairs?⟩

/-- The constant of a line at a place. -/
def ConstantLine.constant (index : Nat) (line : ConstantLine) : Constant :=
  ⟨index, line.name, line.value, Pairs.metadata line.pairs?⟩

/-- What a name stands for below the components of these names. -/
def ItemType.named (components : List String) (name : String) : ItemType :=
  if name ∈ components then .component (components.idxOf name) else .host name

/-- The item of a line. -/
def ItemLine.item (components : List String) (line : ItemLine) : Item :=
  ⟨.named components line.name, Pairs.metadata line.pairs?⟩

/-- The level of detail at a place. -/
def LodBlock.lod (components : List String) (index : Nat) (block : LodBlock) : Lod :=
  ⟨index, block.items.map (ItemLine.item components)⟩

namespace Clause

/-! ## Declarations -/

/-- The declaration that a clause describes below other clauses. -/
def declaration? (before : List Clause) : Clause → Option Declaration
  | namespaceLine _ _ | nameLine _ => none
  | component name pairs? fields => some (.component
      ⟨(names .component before).length, name, fields.mapIdx FieldLine.field, Pairs.metadata pairs?⟩)
  | event name pairs? fields => some (.event
      (.named (names .event before).length name (fields.mapIdx FieldLine.field) (Pairs.metadata pairs?)))
  | type name fields => some (.type ⟨name, fields.mapIdx FieldLine.field⟩)
  | buffer name fields => some (.buffer ⟨name, fields.mapIdx FieldLine.field⟩)
  | enumeration name constants =>
    some (.enumeration ⟨name, constants.mapIdx ConstantLine.constant⟩)
  | signature name parameterType returnType => some (.command
      ⟨(names .command before).length, name, .signature parameterType returnType⟩)
  | command name fields => some (.command
      ⟨(names .command before).length, name, .fields (fields.mapIdx FieldLine.field)⟩)
  | archetype name pairs? lods => some (.archetype
      { Archetype.named (names .archetype before).length name (Pairs.metadata pairs?) with
        lods := lods.mapIdx (LodBlock.lod (names .component before)) })

/-- The declarations that clauses describe below other clauses. -/
def declarationsBelow (before : List Clause) : List Clause → List Declaration
  | [] => []
  | c :: cs => (c.declaration? before).toList ++ declarationsBelow (before ++ [c]) cs

/-- The declarations of a kind that clauses describe, in order. -/
def declarations (k : Kind) (cs : List Clause) : List Declaration :=
  (declarationsBelow [] cs).filter fun d => d.kind = k

/-- The dotted path of a namespace line. -/
def path? : Clause → Option String
  | namespaceLine first more => some (".".intercalate (first :: more))
  | _ => none

/-- The name of a name line. -/
def title? : Clause → Option String
  | nameLine name => some name
  | _ => none

/-- The meta data in the clause. -/
def blocks : Clause → List (Option Pairs)
  | namespaceLine _ _ | nameLine _ | signature _ _ _ => []
  | component _ pairs? fields | event _ pairs? fields => pairs? :: fields.map (·.pairs?)
  | type _ fields | buffer _ fields | command _ fields => fields.map (·.pairs?)
  | enumeration _ constants => constants.map (·.pairs?)
  | archetype _ pairs? lods => pairs? :: lods.flatMap fun block => block.items.map (·.pairs?)

/-- The namespace that clauses give, the last one if there are several. -/
def namespacePath (cs : List Clause) : String := (cs.filterMap path?).getLast?.getD ""

/-- The name that clauses give to the protocol, the last one if there are several. -/
def protocolName (cs : List Clause) : String := (cs.filterMap title?).getLast?.getD ""

/-- One clause more describes one declaration more, if any, below all others. -/
theorem declarationsBelow_concat (before cs : List Clause) (c : Clause) :
    declarationsBelow before (cs ++ [c]) =
      declarationsBelow before cs ++ (c.declaration? (before ++ cs)).toList := by
  induction cs generalizing before with
  | nil => simp [declarationsBelow]
  | cons d cs ih => simp [declarationsBelow, ih]

/-- The same among the declarations of a kind. -/
theorem declarations_concat (k : Kind) (cs : List Clause) (c : Clause) :
    declarations k (cs ++ [c]) =
      declarations k cs ++ (c.declaration? cs).toList.filter fun d => d.kind = k := by
  rw [declarations, declarationsBelow_concat, List.filter_append]
  rfl

/-- The last namespace line counts. -/
theorem namespacePath_concat (cs : List Clause) (c : Clause) :
    namespacePath (cs ++ [c]) = c.path?.getD (namespacePath cs) := by
  cases h : c.path? <;> simp [namespacePath, h]

/-- The last name line counts. -/
theorem protocolName_concat (cs : List Clause) (c : Clause) :
    protocolName (cs ++ [c]) = c.title?.getD (protocolName cs) := by
  cases h : c.title? <;> simp [protocolName, h]

end Clause

/-! ## Indices -/

/-- The declaration with another index; kinds without one stay as they are. -/
def Declaration.withIndex (index : Nat) : Declaration → Declaration
  | component c => component { c with index }
  | archetype a => archetype { a with index }
  | event e => event { e with index }
  | command c => command { c with index }
  | type r => type r
  | enumeration e => enumeration e
  | buffer r => buffer r

/-- An index does not change the kind. -/
theorem Declaration.kind_withIndex (index : Nat) (d : Declaration) : (d.withIndex index).kind = d.kind := by
  cases d <;> rfl

namespace Protocol

/-- The index of every declaration is its place among its kind. -/
structure Numbered (p : Protocol) : Prop where
  /-- Components are numbered. -/
  components : p.components.toList.map (·.index) = List.range p.components.size
  /-- Archetypes are numbered. -/
  archetypes : p.archetypes.toList.map (·.index) = List.range p.archetypes.size
  /-- Events are numbered. -/
  events : p.events.toList.map (·.index) = List.range p.events.size
  /-- Commands are numbered. -/
  commands : p.commands.toList.map (·.index) = List.range p.commands.size

/-- Where nothing is declared nothing has an index. -/
theorem numbered_empty : empty.Numbered := ⟨rfl, rfl, rfl, rfl⟩

/-- A declaration that is added gets its place for an index. -/
theorem Numbered.add {p : Protocol} (h : p.Numbered) (d : Declaration) : (p.add d).Numbered := by
  obtain ⟨hcomponents, harchetypes, hevents, hcommands⟩ := h
  cases d with
  | component | archetype | event | command =>
    constructor <;> simp [Protocol.add, Protocol.append, List.range_succ, *]
  | type | enumeration | buffer => exact ⟨hcomponents, harchetypes, hevents, hcommands⟩

/-- A declaration that is added comes last of its kind, with the count of the kind for an index. -/
theorem declarations_add (p : Protocol) (d : Declaration) (k : Kind) :
    ((p.add d).declarations k).toList = (p.declarations k).toList ++
      if d.kind = k then [d.withIndex (p.count k)] else [] := by
  cases d <;> cases k <;>
    simp [add, append, declarations, count, Declaration.kind, Declaration.withIndex]

/-- To declare something leaves the namespace alone. -/
theorem namespacePath_add (p : Protocol) (d : Declaration) :
    (p.add d).namespacePath = p.namespacePath := by
  cases d <;> rfl

/-- To declare something leaves the name of the protocol alone. -/
theorem name_add (p : Protocol) (d : Declaration) : (p.add d).name = p.name := by
  cases d <;> rfl

/-- Where no name is there twice, a component that is found has the place of its name for an index. -/
theorem index_of_component? {p : Protocol} (hp : p.Numbered) (hindexed : p.Indexed)
    (hnodup : (p.names .component).Nodup) {name : String} {c : Component}
    (h : p.component? name = some c) : c.index = (p.names .component).idxOf name := by
  obtain ⟨i, hi, hat⟩ := Option.bind_eq_some_iff.1 h
  obtain ⟨hlt, hname⟩ := List.getElem?_eq_some_iff.1 (hindexed.name_at .component name i hi)
  -- The table gives a place, and its component is numbered by that place.
  have hplace : (p.components.toList.map (·.index))[i]? = some c.index := by
    rw [List.getElem?_map, Array.getElem?_toList, hat]
    rfl
  rw [hp.components] at hplace
  rw [← hname, hnodup.idxOf_getElem i hlt]
  simpa using (List.getElem?_eq_some_iff.1 hplace).2.symm

end Protocol

/-! ## Members as they are read -/

/-- Fields are numbered on from those that were read before. -/
theorem toList_foldl_fields (lines : List FieldLine) (read : Array PlacedField) :
    (lines.foldl FieldLine.append read).toList.map (·.field) =
      read.toList.map (·.field) ++ lines.mapIdx fun i line => line.field (read.size + i) := by
  induction lines generalizing read with
  | nil => simp
  | cons line lines ih =>
    rw [List.foldl_cons, ih, List.mapIdx_cons]
    simp [FieldLine.append, FieldLine.field, Nat.add_assoc, Nat.add_comm 1]

/-- Constants are numbered on from those that were read before. -/
theorem toList_foldl_constants (lines : List ConstantLine) (read : Array Constant) :
    (lines.foldl ConstantLine.append read).toList =
      read.toList ++ lines.mapIdx fun i line => line.constant (read.size + i) := by
  induction lines generalizing read with
  | nil => simp
  | cons line lines ih =>
    rw [List.foldl_cons, ih, List.mapIdx_cons]
    simp [ConstantLine.append, ConstantLine.constant, Nat.add_assoc, Nat.add_comm 1]

section Archetypes

variable {host : HostTypes} {draft : Draft}

/-- A name that is resolved stands for what it is said to stand for. -/
theorem resolve_eq_named (hdraft : draft.protocol.Numbered)
    (hnodup : (draft.protocol.names .component).Nodup) {name : String} {type : ItemType}
    (h : Body.resolve host draft name = .ok type) :
    type = .named (draft.protocol.names .component) name := by
  have hknown : (draft.protocol.find? .component name).isSome ↔ name ∈ draft.protocol.names .component :=
    Protocol.isSome_find?_iff draft.indexed
  rw [Protocol.find?, Option.isSome_map] at hknown
  unfold Body.resolve at h
  -- A component of that name comes before a type of the host.
  cases hc : draft.protocol.component? name with
  | some c =>
    rw [hc] at h hknown
    cases h
    rw [ItemType.named, if_pos (hknown.1 rfl),
      Protocol.index_of_component? hdraft draft.indexed hnodup hc]
  | none =>
    rw [hc] at h hknown
    have hnone : name ∉ draft.protocol.names .component := fun hmem => by cases hknown.2 hmem
    rw [ItemType.named, if_neg hnone]
    simp only at h
    split at h
    · exact (Except.ok.inj h).symm
    · cases h

/-- Items that were read are those of their lines. -/
theorem toList_of_items (hdraft : draft.protocol.Numbered)
    (hnodup : (draft.protocol.names .component).Nodup) {lines : List ItemLine} {read items : Array Item}
    (h : lines.foldlM (ItemLine.append? host draft) read = some items) :
    items.toList = read.toList ++ lines.map (ItemLine.item (draft.protocol.names .component)) := by
  induction lines generalizing read with
  | nil =>
    cases h
    simp
  | cons line lines ih =>
    rw [List.foldlM_cons] at h
    obtain ⟨mid, hmid, hitems⟩ := Option.bind_eq_some_iff.1 h
    unfold ItemLine.append? at hmid
    split at hmid
    · next type htype =>
      cases hmid
      rw [ih hitems, List.map_cons, ItemLine.item, ← resolve_eq_named hdraft hnodup htype]
      simp
    · cases hmid

/-- A level that is added is numbered by its place. -/
theorem eq_of_addLod {archetype next : Archetype} {level : Int} {items : List Item}
    (h : archetype.addLod level items = .ok next) :
    next = { archetype with lods := archetype.lods ++ [⟨archetype.lods.length, items⟩] } := by
  unfold Archetype.addLod Archetype.nextLevel at h
  split_ifs at h
  cases h
  rfl

/-- Levels of detail are added at the places behind those that are there. -/
theorem eq_of_lods (hdraft : draft.protocol.Numbered)
    (hnodup : (draft.protocol.names .component).Nodup) {blocks : List LodBlock} {archetype next : Archetype}
    (h : blocks.foldlM (LodBlock.append? host draft) archetype = some next) :
    next = { archetype with lods := archetype.lods ++ blocks.mapIdx (fun i block =>
      block.lod (draft.protocol.names .component) (archetype.lods.length + i)) } := by
  induction blocks generalizing archetype with
  | nil =>
    cases h
    simp
  | cons block blocks ih =>
    rw [List.foldlM_cons] at h
    obtain ⟨mid, hmid, hnext⟩ := Option.bind_eq_some_iff.1 h
    obtain ⟨items, hitems, hadd⟩ := LodBlock.append?_eq_some_iff.1 hmid
    have hlist := toList_of_items hdraft hnodup hitems
    rw [ih hnext, eq_of_addLod hadd, List.mapIdx_cons, hlist]
    simp [LodBlock.lod, Nat.add_assoc, Nat.add_comm 1]

end Archetypes

namespace Parser

/-! ## What a parser has built -/

/-- The draft is what the clauses describe. -/
structure Describes (p : Parser) (cs : List Clause) : Prop where
  /-- The declarations of every kind are those that the clauses describe. -/
  declarations : ∀ k, (p.draft.protocol.declarations k).toList = Clause.declarations k cs
  /-- So is the namespace. -/
  namespacePath : p.draft.protocol.namespacePath = Clause.namespacePath cs
  /-- So is the name of the protocol. -/
  name : p.draft.protocol.name = Clause.protocolName cs
  /-- Indices are places. -/
  numbered : p.draft.protocol.Numbered

variable {host : HostTypes} {p p' : Parser} {c : Clause} {cs : List Clause}

/-- What a clause declares is what it describes, once it has its index. -/
theorem declaration?_of_effect? (hnames : ∀ k, p.draft.protocol.names k = Clause.names k cs)
    (hp : p.draft.protocol.Numbered) (hnodup : (Clause.names .component cs).Nodup)
    {x : Declaration} {more : List FieldUse}
    (h : c.effect? host p.draft = some (.declare x more)) :
    c.declaration? cs = some (x.withIndex (p.draft.protocol.count x.kind)) ∧
      c.path? = none ∧ c.title? = none := by
  -- Fields are described by the same lines as they are read from.
  have hfields : ∀ lines : List FieldLine,
      (lines.foldl FieldLine.append #[]).toList.map (·.field) = lines.mapIdx FieldLine.field := by
    intro lines
    simpa using toList_foldl_fields lines #[]
  cases c with
  | namespaceLine | nameLine => cases h
  | component | event | type | buffer | command =>
    cases h
    refine ⟨?_, rfl, rfl⟩
    simp [Clause.declaration?, FieldOwner.declaration, Declaration.withIndex, Declaration.kind, Event.named,
      hfields, ← hnames, Protocol.length_names]
  | enumeration name constants =>
    cases h
    refine ⟨?_, rfl, rfl⟩
    simp [Clause.declaration?, Declaration.withIndex, toList_foldl_constants]
  | signature =>
    cases h
    refine ⟨?_, rfl, rfl⟩
    simp [Clause.declaration?, Declaration.withIndex, Declaration.kind, ← hnames,
      Protocol.length_names]
  | archetype name pairs? lods =>
    obtain ⟨archetype, hlods, heffect⟩ := Option.map_eq_some_iff.1 h
    cases heffect
    refine ⟨?_, rfl, rfl⟩
    rw [eq_of_lods hp (by rwa [hnames]) hlods]
    simp [Clause.declaration?, Declaration.withIndex, Declaration.kind, Archetype.named, ← hnames,
      Protocol.length_names]

/-- The namespace of a line is put together part by part. -/
theorem foldl_dots (first : String) (more : List String) :
    more.foldl (fun path part => path ++ "." ++ part) first = ".".intercalate (first :: more) := by
  induction more generalizing first with
  | nil => rfl
  | cons part more ih => exact ih _

/-- A clause without a declaration gives a namespace or a name. -/
theorem line_of_effect? {effect : Effect} (h : c.effect? host p.draft = some effect)
    (hnone : c.declared? = none) :
    (∃ path, effect = .setNamespace path ∧ c.path? = some path ∧ c.title? = none) ∨
      ∃ name, effect = .setName name ∧ c.path? = none ∧ c.title? = some name := by
  cases c with
  | namespaceLine first more =>
    cases h
    exact Or.inl ⟨_, rfl, congrArg some (foldl_dots first more).symm, rfl⟩
  | nameLine name =>
    cases h
    exact Or.inr ⟨name, rfl, rfl, rfl⟩
  | component | event | type | buffer | enumeration | signature | command | archetype => cases hnone

/-- A clause without a name describes no declaration. -/
theorem declaration?_of_declared? (hnone : c.declared? = none) : c.declaration? cs = none := by
  cases c with
  | namespaceLine | nameLine => rfl
  | component | event | type | buffer | enumeration | signature | command | archetype => cases hnone

/-- A clause that is taken is described with those before it. -/
theorem Describes.take? (hp : p.Describes cs)
    (hnames : ∀ k, p.draft.protocol.names k = Clause.names k cs)
    (hnodup : (Clause.names .component cs).Nodup) (h : take? host p c = some p') :
    p'.Describes (cs ++ [c]) := by
  obtain ⟨hdeclarations, hpath, hname, hnumbered⟩ := hp
  obtain ⟨effect, heffect, hsettle⟩ := Option.bind_eq_some_iff.1 h
  rcases effect?_eq_some heffect with ⟨x, more, rfl, -⟩ | ⟨hnone, -⟩
  · obtain ⟨hdeclared, hnopath, hnotitle⟩ := declaration?_of_effect? hnames hnumbered hnodup heffect
    obtain ⟨-, rfl⟩ := settle?_declare_eq_some_iff.1 hsettle
    -- A declaration adds to its kind and leaves the lines alone.
    refine ⟨fun k => ?_, ?_, ?_, hnumbered.add x⟩
    · have hadd := Protocol.declarations_add p.draft.protocol x k
      rw [hdeclarations] at hadd
      rw [Clause.declarations_concat, hdeclared]
      refine hadd.trans (congrArg _ ?_)
      by_cases hk : x.kind = k
      · simp [hk, Declaration.kind_withIndex]
      · simp [hk, Declaration.kind_withIndex]
    · rw [Clause.namespacePath_concat, hnopath]
      exact (Protocol.namespacePath_add p.draft.protocol x).trans hpath
    · rw [Clause.protocolName_concat, hnotitle]
      exact (Protocol.name_add p.draft.protocol x).trans hname
  · have hsame : ∀ k, Clause.declarations k (cs ++ [c]) = Clause.declarations k cs := by
      intro k
      simp [Clause.declarations_concat, declaration?_of_declared? hnone]
    -- A line sets one of the two texts and leaves all declarations alone.
    rcases line_of_effect? heffect hnone with ⟨path, rfl, hc, hnotitle⟩ | ⟨name, rfl, hnopath, hc⟩
    · cases hsettle
      refine ⟨fun k => ?_, ?_, ?_, hnumbered.components, hnumbered.archetypes, hnumbered.events,
        hnumbered.commands⟩
      · rw [hsame, ← hdeclarations]
        cases k <;> rfl
      · rw [Clause.namespacePath_concat, hc]
        rfl
      · rw [Clause.protocolName_concat, hnotitle]
        exact hname
    · cases hsettle
      refine ⟨fun k => ?_, ?_, ?_, hnumbered.components, hnumbered.archetypes, hnumbered.events,
        hnumbered.commands⟩
      · rw [hsame, ← hdeclarations]
        cases k <;> rfl
      · rw [Clause.namespacePath_concat, hnopath]
        exact hpath
      · rw [Clause.protocolName_concat, hc]
        rfl

/-- Before the first clause nothing is described. -/
theorem describes_start : start.Describes [] where
  declarations k := by
    cases k <;> simp [start, Draft.empty, Protocol.declarations, Protocol.empty, Clause.declarations,
      Clause.declarationsBelow]
  namespacePath := rfl
  name := rfl
  numbered := Protocol.numbered_empty

/-- Everything that is built is what the clauses describe. -/
theorem describes_of_built (h : cs.foldlM (Parser.take? host) start = some p) : p.Describes cs := by
  induction cs using List.reverseRecOn generalizing p with
  | nil =>
    cases h
    exact describes_start
  | append_singleton cs c ih =>
    obtain ⟨mid, hmid, hlast⟩ := built_concat_iff.1 h
    have hnodup := (Clause.forall_fits_iff.1 (exists_built_iff_fits.1 ⟨mid, hmid⟩)).1
    exact (ih hmid).take? (names_of_built hmid).1 (hnodup .component) hlast

end Parser

end EntitySchema
