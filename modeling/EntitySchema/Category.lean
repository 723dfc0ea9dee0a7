/-!
  The three stages at which a description can be refused.
-/

namespace EntitySchema

/-- The stage that found a fault. -/
inductive Category where
  /-- The text has no reading as tokens. -/
  | lexical
  /-- The tokens have no reading as declarations. -/
  | syntactic
  /-- The declarations contradict each other or their host. -/
  | semantic
deriving DecidableEq, Repr

/-- The name of the stage. -/
def Category.text : Category → String
  | lexical => "lexical"
  | syntactic => "syntactic"
  | semantic => "semantic"

end EntitySchema
