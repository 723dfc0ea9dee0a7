import EntitySchema.Json
import EntitySchema.Protocol
/-!
  A protocol as a JSON document.

  Members stand in a fixed order: first what identifies a declaration, then its parts.  Meta data is an
  object whose members are the keys in their order.
-/

namespace EntitySchema

/-- A natural number. -/
def Json.nat (n : Nat) : Json := .number n

/-- Keys and their values. -/
def Metadata.document (m : Metadata) : Json := .object (m.entries.map fun e => (e.1, .string e.2))

/-- A field. -/
def Field.document (f : Field) : Json := .object [
  ("index", .nat f.index), ("name", .string f.name), ("field_type", .string f.typeName),
  ("meta", f.metadata.document)]

/-- Fields, in order. -/
def fieldsDocument (fields : List Field) : Json := .array (fields.map Field.document)

/-- A component. -/
def Component.document (c : Component) : Json := .object [
  ("index", .nat c.index), ("name", .string c.name), ("fields", fieldsDocument c.fields),
  ("meta", c.metadata.document)]

/-- A type or a buffer. -/
def Record.document (r : Record) : Json := .object [
  ("name", .string r.name), ("fields", fieldsDocument r.fields)]

/-- An item, under the word for what it refers to. -/
def Item.document (item : Item) : Json :=
  match item.type with
  | .component index => .object [("component", .object [
      ("component", .nat index), ("meta", item.metadata.document)])]
  | .host name => .object [("field_type", .object [
      ("type_name", .string name), ("meta", item.metadata.document)])]

/-- A level of detail. -/
def Lod.document (lod : Lod) : Json := .object [
  ("level", .nat lod.level), ("items", .array (lod.items.map Item.document))]

/-- An archetype. -/
def Archetype.document (a : Archetype) : Json := .object [
  ("index", .nat a.index), ("name", .string a.name), ("meta", a.metadata.document),
  ("id", .nat a.id.toNat), ("lods", .array (a.lods.map Lod.document))]

/-- An event. -/
def Event.document (e : Event) : Json := .object [
  ("index", .nat e.index), ("name", .string e.name), ("fields", fieldsDocument e.fields),
  ("meta", e.metadata.document), ("id", .nat e.id.toNat)]

/-- The body of a command, under the word for what it is. -/
def CommandBody.document : CommandBody → Json
  | .signature parameterType returnType => .object [("signature", .object [
      ("parameter_type", .string parameterType), ("return_type", .string returnType)])]
  | .fields parts => .object [("fields", fieldsDocument parts)]

/-- A command. -/
def Command.document (c : Command) : Json := .object [
  ("index", .nat c.index), ("name", .string c.name), ("body", c.body.document)]

/-- A constant. -/
def Constant.document (c : Constant) : Json := .object [
  ("index", .nat c.index), ("name", .string c.name), ("value", .number c.value),
  ("meta", c.metadata.document)]

/-- An enumeration. -/
def Enumeration.document (e : Enumeration) : Json := .object [
  ("name", .string e.name), ("constants", .array (e.constants.map Constant.document))]

/-- Everything that a protocol says. -/
def Protocol.document (p : Protocol) : Json := .object [
  ("namespace", .string p.namespacePath), ("name", .string p.name), ("hash", .nat p.hash.toNat),
  ("component_data_types", .array (p.components.toList.map Component.document)),
  ("user_types", .array (p.types.toList.map Record.document)),
  ("archetypes", .array (p.archetypes.toList.map Archetype.document)),
  ("events", .array (p.events.toList.map Event.document)),
  ("commands", .array (p.commands.toList.map Command.document)),
  ("enums", .array (p.enumerations.toList.map Enumeration.document)),
  ("buffers", .array (p.buffers.toList.map Record.document))]

end EntitySchema
