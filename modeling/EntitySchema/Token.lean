import EntitySchema.Integer
import EntitySchema.Position
import EntitySchema.Text.Quoted
/-!
  What a protocol file is made of, once its layout has been read.

  A `Lexeme` is either content (a symbol, a number, a string, an operator, a bracket around meta data),
  a comment, or one of the three structural marks that the layout stands for: a scope opens, a scope
  closes, a line ends.  A `Token` is a lexeme with the place of its first character.
-/

namespace EntitySchema

/-- What a token is, without its place. -/
inductive Lexeme where
  /-- A letter, then letters, digits and hyphens. -/
  | symbol (text : String)
  /-- A decimal integer. -/
  | number (value : Int)
  /-- The text between two quotes. -/
  | string (text : String)
  /-- The text after a number sign, up to the end of its line. -/
  | comment (text : String)
  /-- A punctuation mark. -/
  | operator (mark : Char)
  /-- The indentation grew by one level. -/
  | openScope
  /-- The indentation shrank by one level. -/
  | closeScope
  /-- A line with content ended. -/
  | endLine
  /-- An opening bracket. -/
  | openMeta
  /-- A closing bracket. -/
  | closeMeta
deriving DecidableEq, Repr

namespace Lexeme

/-- A remark that carries no meaning. -/
def isComment : Lexeme → Bool
  | comment _ => true
  | _ => false

/-- Written in the source and part of its meaning. -/
def isContent : Lexeme → Bool
  | symbol _ | number _ | string _ | operator _ | openMeta | closeMeta => true
  | comment _ | openScope | closeScope | endLine => false

/-- The sort of lexeme, in words. -/
def category : Lexeme → String
  | symbol _ => "symbol"
  | number _ => "number"
  | string _ => "string"
  | comment _ => "comment"
  | operator _ => "operator"
  | openScope => "start of scope"
  | closeScope => "end of scope"
  | endLine => "end of line"
  | openMeta => "start of meta data"
  | closeMeta => "end of meta data"

/-- The lexeme as error messages name it. -/
def describe : Lexeme → String
  | symbol text => "symbol '" ++ text ++ "'"
  | number value => "number " ++ Integer.text value
  | string text => "string '" ++ text ++ "'"
  | comment text => "comment '" ++ text ++ "'"
  | operator mark => "operator '" ++ String.singleton mark ++ "'"
  | other => other.category

/-- The lexeme as a constructor and its quoted payload. -/
def inspect : Lexeme → String
  | symbol text => "Symbol(" ++ Text.quotedText text ++ ")"
  | number value => "Number(" ++ Integer.text value ++ ")"
  | string text => "String(" ++ Text.quotedText text ++ ")"
  | comment text => "Comment(" ++ Text.quotedText text ++ ")"
  | operator mark => "Operator(" ++ Text.quotedChar mark ++ ")"
  | openScope => "StartScope"
  | closeScope => "EndScope"
  | endLine => "LineDelimiter"
  | openMeta => "StartMetaData"
  | closeMeta => "EndMetaData"

end Lexeme

/-- A lexeme and the place of its first character. -/
structure Token where
  lexeme : Lexeme
  position : Position
deriving DecidableEq, Repr

namespace Token

/-- A remark that carries no meaning. -/
def isComment (t : Token) : Bool := t.lexeme.isComment

/-- The token as messages name it. -/
def describe (t : Token) : String := t.lexeme.describe ++ " at " ++ t.position.text

/-- The token as a constructor and its place. -/
def inspect (t : Token) : String := t.lexeme.inspect ++ " @ " ++ t.position.text

/-- The tokens that are no comments. -/
def withoutComments (ts : List Token) : List Token := ts.filter fun t => !t.isComment

end Token

end EntitySchema
