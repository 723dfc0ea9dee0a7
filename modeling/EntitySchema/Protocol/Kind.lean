import EntitySchema.Category
/-!
  The kinds of declarations, and how many of each a protocol can hold.

  Components, archetypes, events and commands are known on the wire by an index, the number of
  declarations of their kind before them.  The width of the index bounds their number: 256, and 65536 for
  events.  The other kinds have no index and no bound.
-/

namespace EntitySchema

/-- The kinds of declarations. -/
inductive Kind where
  | component
  | type
  | archetype
  | event
  | command
  | enumeration
  | buffer
deriving DecidableEq, Repr

namespace Kind

/-- The word that opens a declaration of the kind. -/
def keyword : Kind → String
  | component => "component"
  | type => "type"
  | archetype => "archetype"
  | event => "event"
  | command => "command"
  | enumeration => "enum"
  | buffer => "buffer"

/-- All kinds. -/
def all : List Kind := [component, type, archetype, event, command, enumeration, buffer]

/-- The kind whose declarations a word opens. -/
def ofKeyword? (word : String) : Option Kind := all.find? fun k => k.keyword == word

/-- The largest number of declarations, if there is one. -/
def capacity? : Kind → Option Nat
  | component | archetype | command => some 256
  | event => some 65536
  | type | enumeration | buffer => none

/-- The index of the declaration after `count` others of its kind, if it fits. -/
def index? (k : Kind) (count : Nat) : Option Nat :=
  match k.capacity? with
  | some capacity => if count < capacity then some count else none
  | none => some count

/-- The name of the kind's index. -/
def indexLabel? : Kind → Option String
  | component => some "component-index"
  | archetype => some "entity-index"
  | event => some "event-index"
  | command => some "command-index"
  | type | enumeration | buffer => none

/-- An index as it is shown; nothing for a kind without one. -/
def indexText? (k : Kind) (index : Nat) : Option String :=
  k.indexLabel?.map fun label => "[" ++ label ++ " " ++ toString index ++ "]"

example : component.index? 255 = some 255 ∧ component.index? 256 = none := by decide
example : event.index? 65535 = some 65535 ∧ event.index? 65536 = none := by decide

end Kind

/-- Why a declaration is refused. -/
inductive DefinitionError where
  /-- Another declaration of the kind has the name. -/
  | duplicateName (kind : Kind) (name : String)
  /-- The kind has as many declarations as it can hold. -/
  | tooMany (kind : Kind) (capacity : Nat)
deriving DecidableEq, Repr

namespace DefinitionError

/-- A refused declaration contradicts those before it. -/
def category (_ : DefinitionError) : Category := .semantic

/-- The fault in words. -/
def message : DefinitionError → String
  | duplicateName kind name => "duplicate " ++ kind.keyword ++ " name:" ++ name
  | tooMany kind capacity =>
    "too many " ++ kind.keyword ++ " declarations (at most " ++ toString capacity ++ ")"

end DefinitionError

end EntitySchema
