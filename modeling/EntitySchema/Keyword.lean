import EntitySchema.Protocol.Kind
/-!
  The words that open a line between declarations.
-/

namespace EntitySchema

/-- What a line between declarations is about. -/
inductive Keyword where
  /-- The namespace of the protocol. -/
  | namespaceLine
  /-- The name of the protocol. -/
  | nameLine
  /-- A declaration. -/
  | declaration (kind : Kind)
deriving DecidableEq, Repr

namespace Keyword

/-- The word itself. -/
def word : Keyword → String
  | namespaceLine => "namespace"
  | nameLine => "name"
  | declaration kind => kind.keyword

/-- The keyword that a word is, if it is one. -/
def ofWord? (word : String) : Option Keyword :=
  if word = "namespace" then some namespaceLine
  else if word = "name" then some nameLine
  else (Kind.ofKeyword? word).map declaration

/-- Every keyword is read back from its word. -/
theorem ofWord?_word (k : Keyword) : ofWord? k.word = some k := by
  cases k with
  | namespaceLine => rfl
  | nameLine => rfl
  | declaration kind => cases kind <;> decide

end Keyword

end EntitySchema
