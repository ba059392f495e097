import RoutePolicy.Value.Basic

/-!
# Schemas

A schema declares what may stand at each place of a document.  `scope` is the one recursive type: a
mapping with the fields of a scope, whose `else` is a scope again.
-/

namespace RoutePolicy

/-- A declared type; `scope` is that of what may stand under an `else`. -/
inductive Schema where
  | str
  | int
  | bool
  | choice (choices : List String)
  | dict (fields : List (String × Schema))
  | list (item : Schema)
  | scope

/-- What is said to be missing where a value of another type stands. -/
inductive Expectation where
  | text
  | integer
  | boolean
  | mapping
  | list
deriving DecidableEq, Repr

/-- The words for an expectation. -/
def Expectation.words : Expectation → String
  | .text => "a string"
  | .integer => "an integer"
  | .boolean => "a boolean"
  | .mapping => "a mapping"
  | .list => "a list"

/-- What a value of a declared type is expected to be. -/
def Schema.expectation : Schema → Expectation
  | .str | .choice _ => .text
  | .int => .integer
  | .bool => .boolean
  | .dict _ | .scope => .mapping
  | .list _ => .list

end RoutePolicy
