/-!
  What the host of a protocol provides.

  A host program can provide types under which its own data takes part in archetypes (`components`), and
  types that fields of components can have (`fields`).  If it names no field types at all, field types
  are not looked at.
-/

namespace EntitySchema

/-- The types that the host provides, each once, in the order they were named. -/
structure HostTypes where
  /-- Types that archetypes can list. -/
  components : List String
  /-- Types that fields of components can have. -/
  fields : List String
deriving DecidableEq, Repr

namespace HostTypes

/-- A host that provides nothing. -/
def empty : HostTypes := ⟨[], []⟩

/-- Names with one more at the end, unless it is there already. -/
def insertNew (names : List String) (name : String) : List String :=
  if name ∈ names then names else names ++ [name]

/-- The host with more types for archetypes. -/
def withComponents (h : HostTypes) (names : List String) : HostTypes :=
  { h with components := names.foldl insertNew h.components }

/-- The host with more types for fields. -/
def withFields (h : HostTypes) (names : List String) : HostTypes :=
  { h with fields := names.foldl insertNew h.fields }

/-- Archetypes can list the type. -/
def allowsComponent (h : HostTypes) (name : String) : Bool := h.components.contains name

/-- Fields of components can have the type. -/
def allowsField (h : HostTypes) (name : String) : Bool := h.fields.contains name

/-- The types of fields are looked at. -/
def restrictsFields (h : HostTypes) : Bool := !h.fields.isEmpty

/-- Inserting names one by one leaves out only those that are there already, so the names that are `known` in
the end are those from before and the new ones. -/
theorem mem_foldl_insertNew (names known : List String) (name : String) :
    name ∈ names.foldl insertNew known ↔ name ∈ known ∨ name ∈ names := by
  induction names generalizing known with
  | nil => simp
  | cons n ns ih =>
    rw [List.foldl_cons, ih, insertNew]
    split <;> simp_all <;> grind

/-- Archetypes can list what they could list before, and the new types. -/
theorem allowsComponent_withComponents (h : HostTypes) (names : List String) (name : String) :
    (h.withComponents names).allowsComponent name ↔ h.allowsComponent name ∨ name ∈ names := by
  simp [allowsComponent, withComponents, mem_foldl_insertNew]

/-- Fields can have the types they could have before, and the new ones. -/
theorem allowsField_withFields (h : HostTypes) (names : List String) (name : String) :
    (h.withFields names).allowsField name ↔ h.allowsField name ∨ name ∈ names := by
  simp [allowsField, withFields, mem_foldl_insertNew]

end HostTypes

end EntitySchema
