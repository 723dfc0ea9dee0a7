import EntitySchema.Category
import EntitySchema.Fnv
import EntitySchema.Integer
import EntitySchema.Metadata
/-!
  Archetypes: what an entity consists of, by level of detail.

  An archetype lists its items once for every level of detail, from level 0 on and without a gap:
  `nextLevel` accepts a level only if it is the number of levels there are.  An item is a component of the
  protocol, by index, or a type that the host provides, by name.
-/

namespace EntitySchema

/-- What an item refers to. -/
inductive ItemType where
  /-- A component of the same protocol. -/
  | component (index : Nat)
  /-- A type that the host provides. -/
  | host (name : String)
deriving DecidableEq, Repr

/-- One entry of a level of detail. -/
structure Item where
  type : ItemType
  metadata : Metadata
deriving DecidableEq, Repr

/-- The items of an entity at one level of detail. -/
structure Lod where
  level : Nat
  items : List Item
deriving DecidableEq, Repr

/-- Why a level of detail cannot come next. -/
inductive LodError where
  /-- The level is there already. -/
  | duplicate (level : Int)
  /-- The level would leave a gap, or is negative. -/
  | outOfOrder (expected : Nat) (level : Int)
deriving DecidableEq, Repr

namespace LodError

/-- A level out of turn contradicts the levels before it. -/
def category (_ : LodError) : Category := .semantic

/-- The fault in words. -/
def message : LodError → String
  | duplicate level => "lod level " ++ Integer.text level ++ " is already defined"
  | outOfOrder expected level =>
    s!"lod levels must be in order: expected {expected}, got " ++ Integer.text level

end LodError

/-- What an entity consists of, by level of detail.  The identifier is data of its own: it is computed once, by
`named`, and nothing that is done to an archetype later touches it. -/
structure Archetype where
  index : Nat
  name : String
  metadata : Metadata
  /-- The identifier on the wire. -/
  id : UInt16
  lods : List Lod
deriving DecidableEq, Repr

namespace Archetype

/-- The archetype `name` without levels of detail, under the identifier `Fnv.wireId name`. -/
def named (index : Nat) (name : String) (metadata : Metadata) : Archetype :=
  ⟨index, name, metadata, Fnv.wireId name, []⟩

/-- The level with a number. -/
def lod? (a : Archetype) (level : Nat) : Option Lod := a.lods[level]?

/-- The first level, which shows the most. -/
def finest? (a : Archetype) : Option Lod := a.lods.head?

/-- `level`, if it is the next level of detail. -/
def nextLevel (a : Archetype) (level : Int) : Except LodError Nat :=
  if level = a.lods.length then .ok a.lods.length
  else if 0 ≤ level ∧ level < a.lods.length then .error (.duplicate level)
  else .error (.outOfOrder a.lods.length level)

/-- The archetype with one more level of detail, if `level` is the next one. -/
def addLod (a : Archetype) (level : Int) (items : List Item) : Except LodError Archetype :=
  match a.nextLevel level with
  | .ok next => .ok { a with lods := a.lods ++ [⟨next, items⟩] }
  | .error e => .error e

/-- The number of every level is its place. -/
def LevelsInOrder (a : Archetype) : Prop := a.lods.map (·.level) = List.range a.lods.length

example : nextLevel ⟨0, "A", .empty, 0, [⟨0, []⟩]⟩ 1 = .ok 1 := rfl
example : nextLevel ⟨0, "A", .empty, 0, [⟨0, []⟩]⟩ 0 = .error (.duplicate 0) := rfl
example : nextLevel ⟨0, "A", .empty, 0, [⟨0, []⟩]⟩ (-1) = .error (.outOfOrder 1 (-1)) := rfl

end Archetype

end EntitySchema
