import EntitySchema.Canonical
import EntitySchema.Lexer.Source
import EntitySchema.Lexer
import EntitySchema.Parser.State
/-!
  Reading a protocol from its description.

  A `Parser` is fed the tokens of a source one at a time, comments apart.  A token is only read once the
  parser has taken all that stand before it, so whichever fault comes first is reported, and nothing behind
  it is looked at.  A fault of the parser is placed at the token that it was fed last.  Once the source is
  at its end the open line ends too, and no declaration may be left open.

  The types of component fields are looked at last, because a field can have a type that is declared
  further down: every one has to be a type of the host, or a type, enumeration, buffer or component of the
  protocol.  This is left out if the host names no field types.

  The protocol that is read carries the content hash of its source, which is that of all tokens that were
  read, comments included.
-/

namespace EntitySchema

/-- All that is known of a source after some of its tokens. -/
structure Parser where
  /-- What is complete. -/
  draft : Draft
  /-- The uses of types in complete components, in order. -/
  uses : Array FieldUse
  /-- What is open. -/
  state : State

namespace Parser

/-- A parser that has been fed nothing. -/
def start : Parser := ⟨Draft.empty, #[], .between⟩

/-- The draft and the uses of types after `effect`. -/
def apply (effect : Effect) (draft : Draft) (uses : Array FieldUse) :
    Except ParseFault (Draft × Array FieldUse) :=
  match effect with
  | .nothing => .ok (draft, uses)
  | .setNamespace path => .ok (draft.setNamespace path, uses)
  | .setName name => .ok (draft.setName name, uses)
  | .declare x more =>
    match draft.add x with
    | (.ok _, draft) => .ok (draft, uses ++ more.toArray)
    | (.error e, _) => .error (.definition e)

/-- The parser after what was found at `place`: a lexeme, or the end of the source. -/
def feed (host : HostTypes) (place : Position) (found : Option Lexeme) :
    Parser → Except ParseFault Parser
  | ⟨draft, uses, state⟩ =>
    match state.step host draft place found with
    | .error fault => .error fault
    | .ok move =>
      match apply move.effect draft uses with
      | .error fault => .error fault
      | .ok (draft, uses) => .ok ⟨draft, uses, move.state⟩

/-- The parser after a token, comments being passed over. -/
def feedToken (host : HostTypes) (p : Parser) (t : Token) : Except ParseError Parser :=
  if t.isComment then .ok p
  else match p.feed host t.position (some t.lexeme) with
    | .ok p => .ok p
    | .error fault => .error ⟨fault, t.position⟩

/-- The parser after some tokens. -/
def feedTokens (host : HostTypes) (p : Parser) : List Token → Except ParseError Parser
  | [] => .ok p
  | t :: ts =>
    match p.feedToken host t with
    | .ok p => p.feedTokens host ts
    | .error e => .error e

/-- The parser after the end of the source, which it is told twice: the first time ends the line that is
open, the second time finds no declaration open. -/
def feedEnd (host : HostTypes) (place : Position) (p : Parser) : Except ParseError Parser :=
  match p.feed host place none with
  | .error fault => .error ⟨fault, place⟩
  | .ok p =>
    match p.feed host place none with
    | .error fault => .error ⟨fault, place⟩
    | .ok p => .ok p

/-- The type is one that fields of components can have. -/
def knowsFieldType (host : HostTypes) (p : Parser) (typeName : String) : Bool :=
  host.allowsField typeName ||
    [Kind.type, .enumeration, .buffer, .component].any fun k => p.draft.has k typeName

/-- The first use of a type that fields of components cannot have. -/
def unknownUse? (host : HostTypes) (p : Parser) : Option FieldUse :=
  if host.restrictsFields then p.uses.find? fun u => !p.knowsFieldType host u.typeName else none

/-- The parser after all that `s` has yet to read, and all tokens of the source: those in `read`, of which
the last that is no comment stands at `place`, and those that are read on the way. -/
def feedSource (host : HostTypes) (s : SourceLexer) (read : Array Token) (place : Position)
    (p : Parser) : Except SourceError (Parser × List Token) :=
  match _h : s.next with
  | (.error e, _) => .error (.lexical e)
  | (.ok none, _) =>
    match p.feedEnd host place with
    | .error e => .error (.parse e)
    | .ok p => .ok (p, read.toList)
  | (.ok (some t), after) =>
    match p.feedToken host t with
    | .error e => .error (.parse e)
    | .ok p => p.feedSource host after (read.push t) (if t.isComment then place else t.position)
termination_by s.onText.work
decreasing_by exact SourceLexer.work_of_next_lt _h

/-- The field types of a whole source are known. -/
def checkFieldTypes (host : HostTypes) (p : Parser) : Except SourceError Unit :=
  match p.unknownUse? host with
  | some u => .error (.parse ⟨.unknownFieldType u.typeName u.component, u.position⟩)
  | none => .ok ()

end Parser

/-- The protocol that a source describes to a host. -/
def parse (host : HostTypes) (source : String) : Except SourceError Protocol :=
  match Parser.start.feedSource host (SourceLexer.ofSource source) #[] Position.start with
  | .error e => .error e
  | .ok (p, read) =>
    match p.checkFieldTypes host with
    | .error e => .error e
    | .ok _ => .ok (p.draft.finish (contentHash read))

example : (parse HostTypes.empty "component A\n  x int\n").toOption.map (·.components) =
    some #[⟨0, "A", [⟨0, "x", "int", .empty⟩], .empty⟩] := by
  decide +kernel

end EntitySchema
