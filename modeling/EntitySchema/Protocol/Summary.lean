import EntitySchema.Protocol
/-!
  Declarations as people read them.

  Every declaration is a line in brackets, followed by one indented line for each of its parts.  The
  summary of a protocol gives its namespace, name and hash, then every declaration kind by kind; there an
  archetype names its items, while by itself it can only say what they refer to.
-/

namespace EntitySchema

/-- Parts on lines of their own, each behind `margin`. -/
def linesBehind (margin : String) (parts : List String) : String :=
  parts.foldl (fun out part => out ++ "\n" ++ margin ++ part) ""

/-- A field, with its meta data if it has any. -/
def Field.text (f : Field) : String :=
  let remarks := if f.metadata.isEmpty then "" else " " ++ f.metadata.text
  s!"[field {f.index} {f.name} {f.typeName}" ++ remarks ++ "]"

/-- Fields, one per line. -/
def fieldLines (fields : List Field) : String := linesBehind "  " (fields.map Field.text)

/-- A component and its fields. -/
def Component.text (c : Component) : String :=
  s!"[component {c.index} {c.name}]" ++ fieldLines c.fields

/-- A group of fields, under the word for what it is. -/
def Record.text (r : Record) (word : String) : String := s!"[{word} {r.name}]" ++ fieldLines r.fields

/-- A constant and its value. -/
def Constant.text (c : Constant) : String :=
  s!"[constant {c.index} {c.name} = " ++ Integer.text c.value ++ "]"

/-- An enumeration and its constants. -/
def Enumeration.text (e : Enumeration) : String :=
  s!"[enum {e.name}]" ++ linesBehind "  " (e.constants.map Constant.text)

/-- An event and its fields. -/
def Event.text (e : Event) : String :=
  s!"[event {e.index} {e.id.toNat} {e.name}]" ++ fieldLines e.fields

/-- A command and its signature or fields. -/
def Command.text (c : Command) : String :=
  s!"[command {c.index} {c.name}" ++
    match c.body with
    | .signature parameterType returnType => s!" {parameterType} -> {returnType}]"
    | .fields fields => "]" ++ fieldLines fields

/-- What an item refers to. -/
def Item.text (item : Item) : String :=
  match item.type with
  | .component index => s!"[component #{index}]"
  | .host name => s!"[field-type {name}]"

/-- A level of detail, its items shown by `shown`. -/
def Lod.textWith (shown : Item → String) (lod : Lod) : String :=
  s!"\n  [lod {lod.level}]" ++ linesBehind "    " (lod.items.map shown)

/-- An archetype, its items shown by `shown`. -/
def Archetype.textWith (shown : Item → String) (a : Archetype) : String :=
  a.lods.foldl (fun out lod => out ++ lod.textWith shown)
    s!"[archetype {a.index} {a.id.toNat} {a.name}]"

/-- An archetype and what its items refer to. -/
def Archetype.text (a : Archetype) : String := a.textWith Item.text

/-- An item by its name; a question mark if its component is not there. -/
def Protocol.itemText (p : Protocol) (item : Item) : String :=
  "[item " ++ (p.itemName? item).getD "?" ++ "]"

/-- A word as eight hexadecimal digits. -/
def hexWord (word : UInt32) : String :=
  let digits := Nat.toDigits 16 word.toNat
  "0x" ++ String.ofList (List.replicate (8 - digits.length) '0' ++ digits)

/-- Everything that a protocol says. -/
def Protocol.summary (p : Protocol) : String :=
  let head := "namespace: " ++ p.namespacePath ++ "\nname: " ++ p.name ++ "\nhash: " ++ hexWord p.hash
  let parts :=
    p.components.toList.map Component.text ++
    p.types.toList.map (Record.text · "type") ++
    p.buffers.toList.map (Record.text · "buffer") ++
    p.enumerations.toList.map Enumeration.text ++
    p.archetypes.toList.map (Archetype.textWith p.itemText) ++
    p.events.toList.map Event.text ++
    p.commands.toList.map Command.text
  head ++ linesBehind "" parts

end EntitySchema
