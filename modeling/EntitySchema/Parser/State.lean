import EntitySchema.Draft
import EntitySchema.HostTypes
import EntitySchema.Keyword
import EntitySchema.Parser.Error
/-!
  What a description says next, one lexeme at a time.

  The grammar is read by a machine.  Its `State` holds what was read of the line or the body that is
  still open; what is complete goes into the draft at once.  A `Move` is the next state together with
  what it does to the draft, and `State.step` finds the move for a lexeme, or for the end of the source.

  The draft is only looked at where the grammar needs it: a declaration's name has to be new and its kind
  not full when the name is read, and an item of an archetype is a component declared before it, or
  else a type of the host.

  The end of the source is as good as the end of a line wherever a line can end.
-/

namespace EntitySchema

/-- Where a component uses a type for a field. -/
structure FieldUse where
  component : String
  typeName : String
  position : Position
deriving DecidableEq, Repr

/-- A field and the place where its type is written. -/
structure PlacedField where
  field : Field
  typePosition : Position
deriving DecidableEq, Repr

/-- Whose fields are being read. -/
inductive FieldOwner where
  | component (name : String) (metadata : Metadata)
  | event (name : String) (metadata : Metadata)
  | type (name : String)
  | buffer (name : String)
  | command (name : String)
deriving DecidableEq, Repr

/-- A scope, and what was read of it. -/
inductive Body where
  /-- The fields of a declaration. -/
  | fields (owner : FieldOwner) (read : Array PlacedField)
  /-- The constants of an enumeration. -/
  | constants (name : String) (read : Array Constant)
  /-- The levels of detail of an archetype. -/
  | lods (archetype : Archetype)
  /-- The items of one level of detail. -/
  | items (archetype : Archetype) (level : Int) (read : Array Item)
deriving DecidableEq, Repr

/-- A line of a scope, complete but for its meta data. -/
inductive Entry where
  | field (owner : FieldOwner) (read : Array PlacedField) (name typeName : String)
      (typePosition : Position)
  | constant (enumeration : String) (read : Array Constant) (name : String) (value : Int)
  | item (archetype : Archetype) (level : Int) (read : Array Item) (type : ItemType)
deriving DecidableEq, Repr

/-- The first line of a declaration that can have meta data. -/
inductive Header where
  | component (name : String)
  | event (name : String)
  | archetype (name : String)
deriving DecidableEq, Repr

/-- What meta data belongs to. -/
inductive MetaHolder where
  | header (h : Header)
  | entry (e : Entry)
deriving DecidableEq, Repr

/-- What was read of the declaration that is open, and what has to come next. -/
inductive State where
  /-- No declaration is open. -/
  | between
  /-- The first part of a namespace. -/
  | namespaceFirst
  /-- A dot and a further part of a namespace, or its end. -/
  | namespaceMore (path : String)
  /-- A further part of a namespace. -/
  | namespacePart (path : String)
  /-- The name of the protocol. -/
  | protocolName
  /-- The end of the line that names the protocol. -/
  | protocolNameEnd (name : String)
  /-- The name of a declaration. -/
  | declarationName (kind : Kind)
  /-- Meta data of a declaration, or its body. -/
  | header (h : Header)
  /-- The start of a body. -/
  | opening (body : Body)
  /-- The body of a command, or its parameter type. -/
  | commandForm (name : String)
  /-- The return type of a command. -/
  | commandReturn (name parameterType : String)
  /-- The end of a command with a signature. -/
  | commandEnd (name parameterType returnType : String)
  /-- A key, or the end of the meta data. -/
  | metaKey (holder : MetaHolder) (read : Metadata)
  /-- The value of a key. -/
  | metaValue (holder : MetaHolder) (read : Metadata) (key : String)
  /-- A line of a scope, or its end. -/
  | inBody (body : Body)
  /-- The type of a field. -/
  | fieldType (owner : FieldOwner) (read : Array PlacedField) (name : String)
  /-- The value of a constant. -/
  | constantValue (enumeration : String) (read : Array Constant) (name : String)
  /-- The number of a level of detail. -/
  | lodLevel (archetype : Archetype)
  /-- Meta data of a line, or its end. -/
  | entry (e : Entry)
  /-- The end of a line with meta data. -/
  | entryEnd (e : Entry) (metadata : Metadata)
deriving DecidableEq, Repr

/-- What a complete part of a description does to the draft. -/
inductive Effect where
  /-- Nothing is complete yet. -/
  | nothing
  /-- The namespace of the protocol is given. -/
  | setNamespace (path : String)
  /-- The name of the protocol is given. -/
  | setName (name : String)
  /-- A declaration is complete, and so are the uses of types in it. -/
  | declare (x : Declaration) (uses : List FieldUse)
deriving DecidableEq, Repr

/-- The next state, and what it does to the draft. -/
structure Move where
  state : State
  effect : Effect
deriving DecidableEq, Repr

namespace Move

/-- A move that completes nothing. -/
def enter (state : State) : Move := ⟨state, .nothing⟩

/-- A move that completes a declaration. -/
def complete (x : Declaration) (uses : List FieldUse) : Move := ⟨.between, .declare x uses⟩

end Move

/-! ## Scopes and their lines -/

namespace FieldOwner

/-- The declaration that owns the fields.  Its index is left to the draft. -/
def declaration (fields : List Field) : FieldOwner → Declaration
  | component name metadata => .component ⟨0, name, fields, metadata⟩
  | event name metadata => .event (.named 0 name fields metadata)
  | type name => .type ⟨name, fields⟩
  | buffer name => .buffer ⟨name, fields⟩
  | command name => .command ⟨0, name, .fields fields⟩

/-- The uses of types that are looked at: those of components. -/
def uses (read : List PlacedField) : FieldOwner → List FieldUse
  | component name _ => read.map fun f => ⟨name, f.field.typeName, f.typePosition⟩
  | _ => []

end FieldOwner

namespace Header

/-- The body that follows the line, once its meta data is known. -/
def body (metadata : Metadata) : Header → Body
  | component name => .fields (.component name metadata) #[]
  | event name => .fields (.event name metadata) #[]
  | archetype name => .lods (.named 0 name metadata)

end Header

namespace Entry

/-- The scope with the line in it, once its meta data is known. -/
def close (metadata : Metadata) : Entry → Body
  | field owner read name typeName typePosition =>
    .fields owner (read.push ⟨⟨read.size, name, typeName, metadata⟩, typePosition⟩)
  | constant enumeration read name value =>
    .constants enumeration (read.push ⟨read.size, name, value, metadata⟩)
  | item archetype level read type => .items archetype level (read.push ⟨type, metadata⟩)

end Entry

namespace MetaHolder

/-- What comes after the meta data. -/
def after (metadata : Metadata) : MetaHolder → State
  | header h => .opening (h.body metadata)
  | entry e => .entryEnd e metadata

end MetaHolder

namespace Body

/-- What `name` refers to as an item: a component declared before, or else a type of the host. -/
def resolve (host : HostTypes) (draft : Draft) (name : String) : Except ParseFault ItemType :=
  match draft.protocol.component? name with
  | some c => .ok (.component c.index)
  | none =>
    if host.allowsComponent name then .ok (.host name) else .error (.unknownComponentType name)

/-- A line that starts with `word`. -/
def startEntry (host : HostTypes) (draft : Draft) (word : String) :
    Body → Except ParseFault Move
  | fields owner read => .ok (.enter (.fieldType owner read word))
  | constants name read => .ok (.enter (.constantValue name read word))
  | lods archetype =>
    if word = "lod" then .ok (.enter (.lodLevel archetype))
    else .error (.expectedLod (some (.symbol word)))
  | items archetype level read =>
    match resolve host draft word with
    | .ok type => .ok (.enter (.entry (.item archetype level read type)))
    | .error fault => .error fault

/-- The scope ends. -/
def close : Body → Except ParseFault Move
  | fields owner read =>
    let placed := read.toList
    .ok (.complete (owner.declaration (placed.map (·.field))) (owner.uses placed))
  | constants name read => .ok (.complete (.enumeration ⟨name, read.toList⟩) [])
  | lods archetype => .ok (.complete (.archetype archetype) [])
  | items archetype level read =>
    match archetype.addLod level read.toList with
    | .ok archetype => .ok (.enter (.inBody (.lods archetype)))
    | .error e => .error (.lod e)

/-- Neither a line nor the end of the scope was found. -/
def fault (found : Option Lexeme) : Body → ParseFault
  | fields _ _ => .expectedEntry .field found
  | constants _ _ => .expectedEntry .constant found
  | lods _ => .expectedLod found
  | items _ _ _ => .expectedEntry .item found

end Body

/-! ## The moves of the machine -/

namespace State

/-- What comes after the name of a declaration. -/
def afterName (name : String) : Kind → State
  | .component => .header (.component name)
  | .event => .header (.event name)
  | .archetype => .header (.archetype name)
  | .type => .opening (.fields (.type name) #[])
  | .buffer => .opening (.fields (.buffer name) #[])
  | .enumeration => .opening (.constants name #[])
  | .command => .commandForm name

/-- What comes after a keyword. -/
def afterKeyword : Keyword → State
  | .namespaceLine => .namespaceFirst
  | .nameLine => .protocolName
  | .declaration kind => .declarationName kind

/-- A symbol has to come. -/
def onSymbol (what : Wanted) (found : Option Lexeme) (next : String → Except ParseFault Move) :
    Except ParseFault Move :=
  match found with
  | some (.symbol text) => next text
  | _ => .error (.expected what found)

/-- A number has to come. -/
def onNumber (what : Wanted) (found : Option Lexeme) (next : Int → Except ParseFault Move) :
    Except ParseFault Move :=
  match found with
  | some (.number value) => next value
  | _ => .error (.expected what found)

/-- A line has to end; the end of the source will do. -/
def onLineEnd (found : Option Lexeme) (move : Move) : Except ParseFault Move :=
  match found with
  | some .endLine | none => .ok move
  | _ => .error (.missingLineEnd found)

/-- Between declarations: nothing, or a keyword. -/
def stepBetween (found : Option Lexeme) : Except ParseFault Move :=
  match found with
  | some .endLine | none => .ok (.enter .between)
  | some (.symbol word) =>
    match Keyword.ofWord? word with
    | some keyword => .ok (.enter (afterKeyword keyword))
    | none => .error (.unknownKeyword word)
  | _ => .error (.unexpected found)

/-- The name of a declaration has to be new, and its kind must not be full. -/
def stepName (draft : Draft) (kind : Kind) (found : Option Lexeme) : Except ParseFault Move :=
  onSymbol (.name kind) found fun name =>
    match draft.checkUnique kind name with
    | .error e => .error (.definition e)
    | .ok _ =>
      match draft.nextIndex kind with
      | .error e => .error (.definition e)
      | .ok _ => .ok (.enter (afterName name kind))

/-- After the first line of a declaration: meta data, or its body. -/
def stepHeader (h : Header) (found : Option Lexeme) : Except ParseFault Move :=
  match found with
  | some .openMeta => .ok (.enter (.metaKey (.header h) .empty))
  | some .openScope => .ok (.enter (.inBody (h.body .empty)))
  | _ => .error (.missingOpenScope found)

/-- A body has to start. -/
def stepOpening (body : Body) (found : Option Lexeme) : Except ParseFault Move :=
  match found with
  | some .openScope => .ok (.enter (.inBody body))
  | _ => .error (.missingOpenScope found)

/-- After the name of a command: its body, or its parameter type. -/
def stepCommandForm (name : String) (found : Option Lexeme) : Except ParseFault Move :=
  match found with
  | some .openScope => .ok (.enter (.inBody (.fields (.command name) #[])))
  | some (.symbol parameterType) => .ok (.enter (.commandReturn name parameterType))
  | _ => .error (.missingOpenScope found)

/-- After a part of a namespace: a dot, or the end of the line. -/
def stepNamespaceMore (path : String) (found : Option Lexeme) : Except ParseFault Move :=
  match found with
  | some (.operator '.') => .ok (.enter (.namespacePart path))
  | _ => onLineEnd found ⟨.between, .setNamespace path⟩

/-- In meta data: a key, or the end. -/
def stepMetaKey (holder : MetaHolder) (read : Metadata) (found : Option Lexeme) :
    Except ParseFault Move :=
  match found with
  | some .closeMeta => .ok (.enter (holder.after read))
  | some (.symbol key) => .ok (.enter (.metaValue holder read key))
  | _ => .error (.expectedMetaKey found)

/-- After a key: its value. -/
def stepMetaValue (holder : MetaHolder) (read : Metadata) (key : String) (found : Option Lexeme) :
    Except ParseFault Move :=
  match found with
  | some (.string value) => .ok (.enter (.metaKey holder (read.insert key value)))
  | _ => .error (.expected .metaValue found)

/-- In a scope: a line, or the end. -/
def stepBody (host : HostTypes) (draft : Draft) (body : Body) (found : Option Lexeme) :
    Except ParseFault Move :=
  match found with
  | some (.symbol word) => body.startEntry host draft word
  | some .closeScope => body.close
  | _ => .error (body.fault found)

/-- The level of detail has to be the next one. -/
def stepLodLevel (archetype : Archetype) (found : Option Lexeme) : Except ParseFault Move :=
  onNumber .lodLevel found fun level =>
    match archetype.nextLevel level with
    | .ok _ => .ok (.enter (.opening (.items archetype level #[])))
    | .error e => .error (.lod e)

/-- After the parts of a line: meta data, or the end of the line. -/
def stepEntry (e : Entry) (found : Option Lexeme) : Except ParseFault Move :=
  match found with
  | some .openMeta => .ok (.enter (.metaKey (.entry e) .empty))
  | _ => onLineEnd found (.enter (.inBody (e.close .empty)))

/-- The move for what was found at `place`: a lexeme, or the end of the source. -/
def step (host : HostTypes) (draft : Draft) (place : Position) (found : Option Lexeme) :
    State → Except ParseFault Move
  | between => stepBetween found
  | namespaceFirst => onSymbol .namespaceName found fun path => .ok (.enter (.namespaceMore path))
  | namespaceMore path => stepNamespaceMore path found
  | namespacePart path =>
    onSymbol .namespacePart found fun part => .ok (.enter (.namespaceMore (path ++ "." ++ part)))
  | protocolName => onSymbol .protocolName found fun name => .ok (.enter (.protocolNameEnd name))
  | protocolNameEnd name => onLineEnd found ⟨.between, .setName name⟩
  | declarationName kind => stepName draft kind found
  | header h => stepHeader h found
  | opening body => stepOpening body found
  | commandForm name => stepCommandForm name found
  | commandReturn name parameterType =>
    onSymbol .returnType found fun returnType =>
      .ok (.enter (.commandEnd name parameterType returnType))
  | commandEnd name parameterType returnType =>
    onLineEnd found
      (.complete (.command ⟨0, name, .signature parameterType returnType⟩) [])
  | metaKey holder read => stepMetaKey holder read found
  | metaValue holder read key => stepMetaValue holder read key found
  | inBody body => stepBody host draft body found
  | fieldType owner read name =>
    onSymbol .fieldType found fun typeName =>
      .ok (.enter (.entry (.field owner read name typeName place)))
  | constantValue enumeration read name =>
    onNumber .constantValue found fun value =>
      .ok (.enter (.entry (.constant enumeration read name value)))
  | lodLevel archetype => stepLodLevel archetype found
  | entry e => stepEntry e found
  | entryEnd e metadata => onLineEnd found (.enter (.inBody (e.close metadata)))

end State

end EntitySchema
