import EntitySchema.HostTypes
import EntitySchema.Protocol.Kind
import EntitySchema.Token
/-!
  The grammar of descriptions.

  A description is a list of clauses, each a line or a first line with a scope.  With `⏎` for the end of a
  line and braces for the marks of a scope,

      field     = name type pairs? ⏎
      constant  = name number pairs? ⏎
      item      = name pairs? ⏎
      lod       = "lod" number { item* }
      pairs     = [ (key string)* ]

      clause    = "namespace" part (. part)*           end of a line
                | "name" name                          end of a line
                | "command" name type type             end of a line
                | ("component" | "event") name pairs? { field* }
                | ("type" | "buffer" | "command") name { field* }
                | "enum" name { constant* }
                | "archetype" name pairs? { lod* }

  `Clause.lexemes` writes a clause down, and `Program cs xs` says that the lexemes `xs` are the clauses `cs`:
  one after the other, with ends of lines between them that belong to none.  The last line may lack its end
  (`LineEnd`).

  The grammar does not look at names and numbers.  What it leaves open is `Admissible`: names are declared
  once, no kind has too many declarations, levels of detail are counted, items and types are known.
-/

namespace EntitySchema

/-! ## Lines -/

/-- Keys with values, as they are written. -/
abbrev Pairs := List (String × String)

namespace Pairs

/-- Keys and values one after the other. -/
def lexemes (pairs : Pairs) : List Lexeme :=
  pairs.flatMap fun pair => [.symbol pair.1, .string pair.2]

/-- Meta data, if there is any. -/
def bracketed : Option Pairs → List Lexeme
  | none => []
  | some pairs => .openMeta :: lexemes pairs ++ [.closeMeta]

end Pairs

/-- A line for a field. -/
structure FieldLine where
  /-- What the field is called. -/
  name : String
  /-- What its type is called. -/
  typeName : String
  pairs? : Option Pairs

/-- The line as it is written: name, type, meta data, and the end of the line. -/
def FieldLine.lexemes (line : FieldLine) : List Lexeme :=
  .symbol line.name :: .symbol line.typeName :: Pairs.bracketed line.pairs? ++ [.endLine]

/-- A line for a constant. -/
structure ConstantLine where
  name : String
  value : Int
  pairs? : Option Pairs

/-- The line as it is written: name, value, meta data, and the end of the line. -/
def ConstantLine.lexemes (line : ConstantLine) : List Lexeme :=
  .symbol line.name :: .number line.value :: Pairs.bracketed line.pairs? ++ [.endLine]

/-- A line for an item of a level of detail. -/
structure ItemLine where
  name : String
  pairs? : Option Pairs

/-- The line as it is written: name, meta data, and the end of the line. -/
def ItemLine.lexemes (line : ItemLine) : List Lexeme :=
  .symbol line.name :: Pairs.bracketed line.pairs? ++ [.endLine]

/-- A level of detail with its items. -/
structure LodBlock where
  level : Int
  items : List ItemLine

/-- The level as it is written: its number, and its items in a scope. -/
def LodBlock.lexemes (block : LodBlock) : List Lexeme :=
  .symbol "lod" :: .number block.level :: .openScope ::
    block.items.flatMap ItemLine.lexemes ++ [.closeScope]

/-! ## Clauses -/

/-- A part of a description that stands between declarations or is one. -/
inductive Clause where
  /-- A namespace, part by part. -/
  | namespaceLine (first : String) (more : List String)
  /-- The name of the protocol. -/
  | nameLine (name : String)
  | component (name : String) (pairs? : Option Pairs) (fields : List FieldLine)
  | event (name : String) (pairs? : Option Pairs) (fields : List FieldLine)
  | type (name : String) (fields : List FieldLine)
  | buffer (name : String) (fields : List FieldLine)
  | enumeration (name : String) (constants : List ConstantLine)
  /-- A command with a parameter and a result. -/
  | signature (name parameterType returnType : String)
  /-- A command with fields. -/
  | command (name : String) (fields : List FieldLine)
  | archetype (name : String) (pairs? : Option Pairs) (lods : List LodBlock)

namespace Clause

/-- The further parts of a namespace, each behind a dot. -/
def dotted (more : List String) : List Lexeme := more.flatMap fun part => [.operator '.', .symbol part]

/-- The clause as it is written; a line is written without its end. -/
def lexemes : Clause → List Lexeme
  | namespaceLine first more => .symbol "namespace" :: .symbol first :: dotted more
  | nameLine name => [.symbol "name", .symbol name]
  | component name pairs? fields =>
    .symbol "component" :: .symbol name :: Pairs.bracketed pairs? ++
      .openScope :: fields.flatMap FieldLine.lexemes ++ [.closeScope]
  | event name pairs? fields =>
    .symbol "event" :: .symbol name :: Pairs.bracketed pairs? ++
      .openScope :: fields.flatMap FieldLine.lexemes ++ [.closeScope]
  | type name fields =>
    .symbol "type" :: .symbol name :: .openScope ::
      fields.flatMap FieldLine.lexemes ++ [.closeScope]
  | buffer name fields =>
    .symbol "buffer" :: .symbol name :: .openScope ::
      fields.flatMap FieldLine.lexemes ++ [.closeScope]
  | enumeration name constants =>
    .symbol "enum" :: .symbol name :: .openScope ::
      constants.flatMap ConstantLine.lexemes ++ [.closeScope]
  | signature name parameterType returnType =>
    [.symbol "command", .symbol name, .symbol parameterType, .symbol returnType]
  | command name fields =>
    .symbol "command" :: .symbol name :: .openScope ::
      fields.flatMap FieldLine.lexemes ++ [.closeScope]
  | archetype name pairs? lods =>
    .symbol "archetype" :: .symbol name :: Pairs.bracketed pairs? ++
      .openScope :: lods.flatMap LodBlock.lexemes ++ [.closeScope]

/-- The kind and the name of the declaration. -/
def declared? : Clause → Option (Kind × String)
  | namespaceLine _ _ | nameLine _ => none
  | component name _ _ => some (.component, name)
  | event name _ _ => some (.event, name)
  | type name _ => some (.type, name)
  | buffer name _ => some (.buffer, name)
  | enumeration name _ => some (.enumeration, name)
  | signature name _ _ | command name _ => some (.command, name)
  | archetype name _ _ => some (.archetype, name)

/-- The fields of a component. -/
def componentFields : Clause → List FieldLine
  | component _ _ fields => fields
  | _ => []

/-- The levels of detail of an archetype. -/
def lods : Clause → List LodBlock
  | archetype _ _ lods => lods
  | _ => []

end Clause

/-! ## Descriptions -/

/-- A line ends before `rest`; at the end of everything it ends by itself. -/
inductive LineEnd : List Lexeme → List Lexeme → Prop
  /-- The line has a mark for its end. -/
  | mark (rest : List Lexeme) : LineEnd (.endLine :: rest) rest
  /-- The line is the last one, without a mark. -/
  | last : LineEnd [] []

/-- The clause ends before `rest`, when `xs` comes behind what is written of it. -/
def Clause.Ends (xs rest : List Lexeme) : Clause → Prop
  | namespaceLine _ _ | nameLine _ | signature _ _ _ => LineEnd xs rest
  | component _ _ _ | event _ _ _ | type _ _ | buffer _ _ | enumeration _ _ | command _ _
  | archetype _ _ _ => xs = rest

/-- The lexemes are a description made of the clauses. -/
inductive Program : List Clause → List Lexeme → Prop
  /-- Nothing at all. -/
  | nil : Program [] []
  /-- The end of a line that belongs to no clause. -/
  | blank {cs : List Clause} {xs : List Lexeme} (h : Program cs xs) : Program cs (.endLine :: xs)
  /-- A clause, and the description behind it. -/
  | clause {c : Clause} {cs : List Clause} {xs rest : List Lexeme} (hends : c.Ends xs rest)
      (h : Program cs rest) : Program (c :: cs) (c.lexemes ++ xs)

namespace Clause

/-- The names that clauses declare for a kind, in order. -/
def names (k : Kind) (cs : List Clause) : List String :=
  ((cs.filterMap declared?).filter fun declared => declared.1 = k).map (·.2)

end Clause

/-- Clauses that a host accepts. -/
structure Admissible (host : HostTypes) (cs : List Clause) : Prop where
  /-- No kind has a name twice. -/
  names_nodup : ∀ k, (Clause.names k cs).Nodup
  /-- As many components as a byte can number. -/
  components_le : (Clause.names .component cs).length ≤ 256
  /-- As many archetypes as a byte can number. -/
  archetypes_le : (Clause.names .archetype cs).length ≤ 256
  /-- As many commands as a byte can number. -/
  commands_le : (Clause.names .command cs).length ≤ 256
  /-- As many events as two bytes can number. -/
  events_le : (Clause.names .event cs).length ≤ 65536
  /-- Levels of detail are counted from zero. -/
  levels : ∀ c ∈ cs, c.lods.map (·.level) = (List.range c.lods.length).map Int.ofNat
  /-- An item is a component declared above, or a type of the host. -/
  items : ∀ before c, before ++ [c] <+: cs → ∀ lod ∈ c.lods, ∀ item ∈ lod.items,
    item.name ∈ Clause.names .component before ∨ host.allowsComponent item.name
  /-- If the host restricts the types of fields, those of components are types of the host or declared. -/
  fields : host.restrictsFields → ∀ c ∈ cs, ∀ field ∈ c.componentFields,
    host.allowsField field.typeName ∨
      ∃ k ∈ [Kind.type, .enumeration, .buffer, .component], field.typeName ∈ Clause.names k cs

end EntitySchema
