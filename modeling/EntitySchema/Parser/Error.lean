import EntitySchema.Lexer.Error
import EntitySchema.Protocol.Archetype
import EntitySchema.Protocol.Kind
import EntitySchema.Token
/-!
  Why a source has no reading as a protocol, and where.

  A fault that has to do with what stands in the source says what was found there; nothing was found if
  the source is at its end.
-/

namespace EntitySchema

/-- A part of a line that has to be there. -/
inductive Wanted where
  | name (kind : Kind)
  | fieldType
  | returnType
  | namespaceName
  | namespacePart
  | protocolName
  | metaValue
  | constantValue
  | lodLevel
deriving DecidableEq, Repr

namespace Wanted

/-- The part in words. -/
def text : Wanted → String
  | name kind => kind.keyword ++ " name"
  | fieldType => "field type"
  | returnType => "command return type"
  | namespaceName => "namespace"
  | namespacePart => "namespace part"
  | protocolName => "protocol name"
  | metaValue => "meta value"
  | constantValue => "enum value"
  | lodLevel => "lod level"

end Wanted

/-- What the lines of a scope are. -/
inductive EntrySort where
  | field
  | constant
  | item
deriving DecidableEq, Repr

namespace EntrySort

/-- The start of such a line, in words. -/
def text : EntrySort → String
  | field => "field name"
  | constant => "enum constant"
  | item => "archetype item"

end EntrySort

/-- What is wrong with the tokens of a source, or with what they declare. -/
inductive ParseFault where
  /-- The body of a declaration has to start here. -/
  | missingOpenScope (found : Option Lexeme)
  /-- A line of the scope, or its end, has to come here. -/
  | expectedEntry (sort : EntrySort) (found : Option Lexeme)
  /-- Nothing of the kind can stand between declarations. -/
  | unexpected (found : Option Lexeme)
  /-- The line has to end here. -/
  | missingLineEnd (found : Option Lexeme)
  /-- No declaration starts with the word. -/
  | unknownKeyword (word : String)
  /-- A part of the line is missing. -/
  | expected (what : Wanted) (found : Option Lexeme)
  /-- A level of detail, or the end of the archetype, has to come here. -/
  | expectedLod (found : Option Lexeme)
  /-- A key, or the end of the meta data, has to come here. -/
  | expectedMetaKey (found : Option Lexeme)
  /-- An item is neither a component declared before nor a type of the host. -/
  | unknownComponentType (name : String)
  /-- The type of a component's field is neither declared nor a type of the host. -/
  | unknownFieldType (typeName component : String)
  /-- A level of detail is out of turn. -/
  | lod (e : LodError)
  /-- A declaration is refused. -/
  | definition (e : DefinitionError)
deriving DecidableEq, Repr

namespace ParseFault

/-- What was found, in words. -/
def foundText : Option Lexeme → String
  | some lexeme => lexeme.describe
  | none => "end of input"

/-- The stage at which the fault is found. -/
def category : ParseFault → Category
  | unknownComponentType _ => .semantic
  | unknownFieldType _ _ => .semantic
  | lod e => e.category
  | definition e => e.category
  | _ => .syntactic

/-- The fault in words. -/
def message : ParseFault → String
  | missingOpenScope found => "missing start scope, found " ++ foundText found
  | expectedEntry sort found =>
    "expected " ++ sort.text ++ " or end of scope, found " ++ foundText found
  | unexpected found => "unexpected token: " ++ foundText found
  | missingLineEnd found => "must end line, found " ++ foundText found
  | unknownKeyword word => "unknown keyword " ++ word
  | expected what found => "expected " ++ what.text ++ ", found " ++ foundText found
  | expectedLod found => "expected 'lod' or end of scope, found " ++ foundText found
  | expectedMetaKey found => "expected meta key or end of meta data, found " ++ foundText found
  | unknownComponentType name => "unknown component type:" ++ name
  | unknownFieldType typeName component =>
    "unknown field type:" ++ typeName ++ " in component " ++ component
  | lod e => e.message
  | definition e => e.message

end ParseFault

/-- A fault and the place of the last token that was looked at. -/
structure ParseError where
  fault : ParseFault
  position : Position
deriving DecidableEq, Repr

/-- Why a source has no reading as a protocol. -/
inductive SourceError where
  /-- The text has no reading as tokens. -/
  | lexical (e : LexError)
  /-- The tokens have no reading as a protocol. -/
  | parse (e : ParseError)
deriving DecidableEq, Repr

namespace SourceError

/-- The stage at which the fault is found. -/
def category : SourceError → Category
  | lexical e => e.category
  | parse e => e.fault.category

/-- The place of the fault. -/
def position : SourceError → Position
  | lexical e => e.position
  | parse e => e.position

/-- The fault in words, with its place. -/
def message : SourceError → String
  | lexical e => e.message
  | parse e => e.fault.message ++ " at " ++ e.position.text

end SourceError

end EntitySchema
