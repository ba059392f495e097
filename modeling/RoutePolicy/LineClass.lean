import RoutePolicy.Pattern.Basic
import RoutePolicy.Text.Words

/-!
# Line classes

The first word of a line decides what kind of line it is, and only rules of that kind can match it.
The one test that looks at less than a word is `else`: every line that starts with these letters is
a branch line, `elseif` and `elsewhere` included.
-/

namespace RoutePolicy

/-- The kinds of lines in a configuration.  A condition is one clause of what stands on a branch
line, and an action that sets an attribute is a setting. -/
inductive LineClass where
  | header
  | branch
  | condition
  | action
  | setting
deriving DecidableEq, Repr

namespace LineClass

/-- The first words of plain actions. -/
def actionWords : List String :=
  ["add", "apply", "drop", "pass", "prepend", "suppress-route", "unsuppress-route", "remove"]

/-- The class of a trimmed line. -/
def ofLine (line : List Char) : LineClass :=
  let word := String.ofList (Text.firstWord line)
  if word = "route-policy" then .header
  else if word = "if" ∨ word = "elseif" ∨ (Pattern.afterText "else".toList line).isSome then .branch
  else if word = "set" then .setting
  else if word ∈ actionWords then .action
  else .condition

/-- Whether lines of a class stand as statements in the body of a policy or a branch. -/
def isStatement : LineClass → Bool
  | .action | .setting => true
  | _ => false

/-- Every class. -/
def any (_ : LineClass) : Bool := true

example : ofLine "elsewhere".toList = .branch := by decide +kernel
example : ofLine "setting x".toList = .condition := by decide +kernel

end LineClass

end RoutePolicy
