import EntitySchema.Protocol.Declaration
import Std.Data.TreeMap.Lemmas
/-!
  A protocol: every declaration of one description, kind by kind in the order of the source.

  The index of a component, archetype, event or command is its place among its kind.  Beside its declarations
  a protocol keeps the place of every name, so that looking one up is quick however many declarations there
  are.

  The places could be wrong as far as the type goes.  `Indexed p` says that they are right: the name at the
  place of `name` is `name`, and every name of `p.names k` has a place.  It is kept by `add` (`Indexed.add`),
  since the new name comes last and its place is the count of its kind.  From it,

      (p.find? k name).isSome ↔ name ∈ p.names k

  so what is found by name is what is there by name (`isSome_find?_iff`).  Under one name of a kind there may
  be several declarations as far as this module goes; that there is only one is what a `Draft` sees to.
-/

namespace EntitySchema

/-! ## Names and their places -/

/-- The place of a kind among all kinds. -/
def Kind.rank : Kind → Nat
  | component => 0
  | type => 1
  | archetype => 2
  | event => 3
  | command => 4
  | enumeration => 5
  | buffer => 6

/-- Names are kept by kind, then by the name itself. -/
abbrev nameOrder : Kind × String → Kind × String → Ordering :=
  compareLex (compareOn fun n => n.1.rank) (compareOn fun n => n.2)

/-- Only a name and itself are in the same place. -/
theorem nameOrder_eq_iff (m n : Kind × String) : nameOrder m n = .eq ↔ m = n := by
  obtain ⟨k, s⟩ := m
  obtain ⟨l, t⟩ := n
  simp only [nameOrder, compareLex, compareOn, Ordering.then_eq_eq, Prod.mk.injEq,
    Std.LawfulEqOrd.compare_eq_iff_eq]
  cases k <;> cases l <;> simp [Kind.rank]

/-- The names in use, each with its kind, and where they stand among it. -/
abbrev NamePlaces := Std.TreeMap (Kind × String) Nat nameOrder

/-- Looking up a name `n` after `m` was entered at `i`: names of different kinds do not meet. -/
theorem getElem?_insert_namePlaces (places : NamePlaces) (m n : Kind × String) (i : Nat) :
    (places.insert m i)[n]? = if m = n then some i else places[n]? := by
  rw [Std.TreeMap.getElem?_insert]
  simp only [nameOrder_eq_iff]

/-! ## Protocols -/

/-- Every declaration of one description. -/
structure Protocol where
  /-- The dotted path under which the protocol is known; empty if none was given. -/
  namespacePath : String
  /-- The name of the protocol; empty if none was given. -/
  name : String
  /-- The hash of what the description says. -/
  hash : UInt32
  components : Array Component
  types : Array Record
  archetypes : Array Archetype
  events : Array Event
  commands : Array Command
  enumerations : Array Enumeration
  buffers : Array Record
  /-- Where the names stand among their kinds. -/
  places : NamePlaces

namespace Protocol

/-- A protocol that says nothing. -/
def empty : Protocol := ⟨"", "", 0, #[], #[], #[], #[], #[], #[], #[], ∅⟩

/-- The declarations of a kind, in order. -/
def declarations (p : Protocol) : Kind → Array Declaration
  | .component => p.components.map .component
  | .type => p.types.map .type
  | .archetype => p.archetypes.map .archetype
  | .event => p.events.map .event
  | .command => p.commands.map .command
  | .enumeration => p.enumerations.map .enumeration
  | .buffer => p.buffers.map .buffer

/-- The number of declarations of a kind. -/
def count (p : Protocol) : Kind → Nat
  | .component => p.components.size
  | .type => p.types.size
  | .archetype => p.archetypes.size
  | .event => p.events.size
  | .command => p.commands.size
  | .enumeration => p.enumerations.size
  | .buffer => p.buffers.size

/-- The names of a kind, in order. -/
def names (p : Protocol) (k : Kind) : List String := (p.declarations k).toList.map Declaration.name

/-- The place of a name among its kind. -/
def place? (p : Protocol) (k : Kind) (name : String) : Option Nat := p.places[(k, name)]?

/-- A declaration of the kind has the name. -/
def contains (p : Protocol) (k : Kind) (name : String) : Bool := (p.place? k name).isSome

/-- The component with a name. -/
def component? (p : Protocol) (name : String) : Option Component :=
  (p.place? .component name).bind fun i => p.components[i]?

/-- The type with a name. -/
def type? (p : Protocol) (name : String) : Option Record :=
  (p.place? .type name).bind fun i => p.types[i]?

/-- The archetype with a name. -/
def archetype? (p : Protocol) (name : String) : Option Archetype :=
  (p.place? .archetype name).bind fun i => p.archetypes[i]?

/-- The event with a name. -/
def event? (p : Protocol) (name : String) : Option Event :=
  (p.place? .event name).bind fun i => p.events[i]?

/-- The command with a name. -/
def command? (p : Protocol) (name : String) : Option Command :=
  (p.place? .command name).bind fun i => p.commands[i]?

/-- The enumeration with a name. -/
def enumeration? (p : Protocol) (name : String) : Option Enumeration :=
  (p.place? .enumeration name).bind fun i => p.enumerations[i]?

/-- The buffer with a name. -/
def buffer? (p : Protocol) (name : String) : Option Record :=
  (p.place? .buffer name).bind fun i => p.buffers[i]?

/-- The declaration of a kind with a name. -/
def find? (p : Protocol) (k : Kind) (name : String) : Option Declaration :=
  match k with
  | .component => (p.component? name).map .component
  | .type => (p.type? name).map .type
  | .archetype => (p.archetype? name).map .archetype
  | .event => (p.event? name).map .event
  | .command => (p.command? name).map .command
  | .enumeration => (p.enumeration? name).map .enumeration
  | .buffer => (p.buffer? name).map .buffer

/-- The name that an item stands for; nothing if its index belongs to no component. -/
def itemName? (p : Protocol) (item : Item) : Option String :=
  match item.type with
  | .component index => p.components[index]?.map (·.name)
  | .host name => some name

/-- One more declaration, whose index is its place among its kind. -/
def append (p : Protocol) : Declaration → Protocol
  | .component c => { p with components := p.components.push { c with index := p.components.size } }
  | .type r => { p with types := p.types.push r }
  | .archetype a => { p with archetypes := p.archetypes.push { a with index := p.archetypes.size } }
  | .event e => { p with events := p.events.push { e with index := p.events.size } }
  | .command c => { p with commands := p.commands.push { c with index := p.commands.size } }
  | .enumeration e => { p with enumerations := p.enumerations.push e }
  | .buffer r => { p with buffers := p.buffers.push r }

/-- One more declaration, and the place of its name. -/
def add (p : Protocol) (d : Declaration) : Protocol :=
  { p.append d with places := p.places.insert (d.kind, d.name) (p.count d.kind) }

/-- A declaration that is added comes last among the names of its kind and changes no other kind. -/
theorem names_add (p : Protocol) (d : Declaration) (k : Kind) :
    (p.add d).names k = if k = d.kind then p.names k ++ [d.name] else p.names k := by
  cases d <;> cases k <;>
    simp [add, append, names, declarations, Declaration.kind, Declaration.name]

/-- There is a name for every declaration of a kind. -/
theorem length_names (p : Protocol) (k : Kind) : (p.names k).length = p.count k := by
  cases k <;> simp [names, declarations, count]

/-- A declaration that is added has the count of its kind for a place; no other name moves. -/
theorem place?_add (p : Protocol) (d : Declaration) (k : Kind) (name : String) :
    (p.add d).place? k name =
      if (d.kind, d.name) = (k, name) then some (p.count d.kind) else p.place? k name :=
  getElem?_insert_namePlaces p.places (d.kind, d.name) (k, name) (p.count d.kind)

/-! ## Places that are right -/

/-- The places are those of the names. -/
structure Indexed (p : Protocol) : Prop where
  name_at : ∀ k name i, p.place? k name = some i → (p.names k)[i]? = some name
  has_place : ∀ k, ∀ name ∈ p.names k, (p.place? k name).isSome

/-- There are no names and no places to begin with. -/
theorem indexed_empty : empty.Indexed where
  name_at k name i h := by simp [empty, place?] at h
  has_place k := by cases k <;> simp [empty, names, declarations]

/-- Only the names and their places matter. -/
theorem Indexed.congr {p q : Protocol} (h : p.Indexed) (hnames : ∀ k, q.names k = p.names k)
    (hplaces : q.places = p.places) : q.Indexed := by
  have hplace : ∀ k name, q.place? k name = p.place? k name := by
    intro k name
    rw [place?, hplaces, place?]
  exact ⟨fun k name i => by rw [hplace, hnames]; exact h.name_at k name i,
    fun k name => by rw [hplace, hnames]; exact h.has_place k name⟩

/-- A declaration that is added has the next place of its kind. -/
theorem Indexed.add {p : Protocol} (h : p.Indexed) (d : Declaration) : (p.add d).Indexed where
  name_at k name i hi := by
    rw [place?_add] at hi
    rw [names_add]
    -- A name that is looked up is the one that was added, at the last place, or one from before.
    by_cases hd : (d.kind, d.name) = (k, name)
    · cases hd
      rw [if_pos rfl] at hi
      rw [if_pos rfl, ← Option.some.inj hi, ← length_names]
      simp
    · rw [if_neg hd] at hi
      have hat := h.name_at k name i hi
      split
      · rw [List.getElem?_append_left (List.getElem?_eq_some_iff.1 hat).1, hat]
      · exact hat
  has_place k name hname := by
    rw [place?_add]
    split
    · rfl
    · next hd =>
      rw [names_add] at hname
      split at hname
      · next hk =>
        rcases List.mem_append.1 hname with hname | hname
        · exact h.has_place k name hname
        · exact absurd (by rw [hk, List.mem_singleton.1 hname]) hd
      · exact h.has_place k name hname

section Lookups

variable {p : Protocol} {k : Kind} {name : String}

/-- A name is known exactly if it is among the names of the kind. -/
theorem contains_iff (h : p.Indexed) : p.contains k name ↔ name ∈ p.names k := by
  refine ⟨fun hplace => ?_, h.has_place k name⟩
  obtain ⟨i, hi⟩ := Option.isSome_iff_exists.1 hplace
  exact List.mem_of_getElem? (h.name_at k name i hi)

/-- What is found is what stands at the place of the name. -/
theorem find?_eq_bind (p : Protocol) (k : Kind) (name : String) :
    p.find? k name = (p.place? k name).bind fun i => (p.declarations k)[i]? := by
  cases k <;>
    simp only [find?, component?, type?, archetype?, event?, command?, enumeration?, buffer?,
      declarations, Option.map_bind, Array.getElem?_map] <;>
    rfl

/-- What is found has the name, and stands at its place. -/
theorem exists_place_of_find? (h : p.Indexed) {d : Declaration} (hd : p.find? k name = some d) :
    ∃ i, p.place? k name = some i ∧ (p.declarations k)[i]? = some d ∧ d.name = name := by
  rw [find?_eq_bind] at hd
  obtain ⟨i, hi, hat⟩ := Option.bind_eq_some_iff.1 hd
  have hname := h.name_at k name i hi
  rw [names, List.getElem?_map, Array.getElem?_toList, hat] at hname
  exact ⟨i, hi, hat, Option.some.inj hname⟩

/-- Something is found exactly if the name is among the names of the kind. -/
theorem isSome_find?_iff (h : p.Indexed) : (p.find? k name).isSome ↔ name ∈ p.names k := by
  rw [← contains_iff h, find?_eq_bind, contains]
  cases hi : p.place? k name with
  | none => simp
  | some i =>
    have hlt := (List.getElem?_eq_some_iff.1 (h.name_at k name i hi)).1
    rw [names, List.length_map, Array.length_toList] at hlt
    simp [hlt]

end Lookups

end Protocol

end EntitySchema
