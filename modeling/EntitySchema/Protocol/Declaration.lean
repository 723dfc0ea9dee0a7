import EntitySchema.Fnv
import EntitySchema.Metadata
import EntitySchema.Protocol.Archetype
import EntitySchema.Protocol.Kind
/-!
  The declarations of a protocol.

  A declaration of any kind has a name.  Components, archetypes, events and commands also carry their
  index, and the fields of a declaration and the constants of an enumeration carry their places.
-/

namespace EntitySchema

/-- A named value of a named type. -/
structure Field where
  index : Nat
  name : String
  typeName : String
  metadata : Metadata
deriving DecidableEq, Repr

/-- What an entity can carry. -/
structure Component where
  index : Nat
  name : String
  fields : List Field
  metadata : Metadata
deriving DecidableEq, Repr

/-- A group of fields under a name: a type, or a buffer that is sent in bulk. -/
structure Record where
  name : String
  fields : List Field
deriving DecidableEq, Repr

/-- A named integer of an enumeration. -/
structure Constant where
  index : Nat
  name : String
  value : Int
  metadata : Metadata
deriving DecidableEq, Repr

/-- Named integers. -/
structure Enumeration where
  name : String
  constants : List Constant
deriving DecidableEq, Repr

/-- The first constant with a name. -/
def Enumeration.constant? (e : Enumeration) (name : String) : Option Constant :=
  e.constants.find? fun c => c.name == name

/-- A message that tells what happened.  Like that of an archetype, the identifier is set once, by `named`. -/
structure Event where
  index : Nat
  name : String
  fields : List Field
  metadata : Metadata
  /-- The identifier on the wire. -/
  id : UInt16
deriving DecidableEq, Repr

/-- The event `name` under the identifier `Fnv.wireId name`. -/
def Event.named (index : Nat) (name : String) (fields : List Field) (metadata : Metadata) : Event :=
  ⟨index, name, fields, metadata, Fnv.wireId name⟩

/-- What a command carries. -/
inductive CommandBody where
  /-- One parameter, and an answer. -/
  | signature (parameterType returnType : String)
  /-- Fields, and no answer. -/
  | fields (fields : List Field)
deriving DecidableEq, Repr

/-- A message that asks for something. -/
structure Command where
  index : Nat
  name : String
  body : CommandBody
deriving DecidableEq, Repr

/-- The fields of a command; a signature has none. -/
def Command.fields (c : Command) : List Field :=
  match c.body with
  | .signature _ _ => []
  | .fields fields => fields

/-- A declaration of any kind. -/
inductive Declaration where
  | component (c : Component)
  | type (r : Record)
  | archetype (a : Archetype)
  | event (e : Event)
  | command (c : Command)
  | enumeration (e : Enumeration)
  | buffer (r : Record)
deriving DecidableEq, Repr

namespace Declaration

/-- The kind of a declaration. -/
def kind : Declaration → Kind
  | component _ => .component
  | type _ => .type
  | archetype _ => .archetype
  | event _ => .event
  | command _ => .command
  | enumeration _ => .enumeration
  | buffer _ => .buffer

/-- The name of a declaration. -/
def name : Declaration → String
  | component c => c.name
  | type r => r.name
  | archetype a => a.name
  | event e => e.name
  | command c => c.name
  | enumeration e => e.name
  | buffer r => r.name

end Declaration

end EntitySchema
