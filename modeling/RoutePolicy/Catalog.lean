import RoutePolicy.Catalog.Condition
import RoutePolicy.Catalog.Statement

/-!
# The catalog

All rules, in the order in which they are tried: the policy header, the branch lines, the condition
clauses, the plain actions, the settings.
-/

namespace RoutePolicy

namespace Catalog

/-- The line `route-policy NAME`, perhaps with a parameter list.  A further word makes the line an
attachment of the policy somewhere else, and not a header. -/
def header : Rule :=
  { parents := []
    leaf := "name"
    lineClass := .header
    pattern := .header "route-policy" "name"
    shape := .value .text }

/-- A line that opens a branch with a condition. -/
def conditional (leaf : String) : Rule :=
  { parents := ["branch"]
    leaf
    lineClass := .branch
    pattern := .branch leaf "condition"
    shape := .map [⟨"condition", .text⟩] }

/-- The line `if CONDITION then`. -/
def ifBranch : Rule := conditional "if"

/-- The line `elseif CONDITION then`. -/
def elseIfBranch : Rule := conditional "elseif"

/-- A line that starts with `else`. -/
def elseBranch : Rule :=
  { parents := ["branch"]
    leaf := "else"
    lineClass := .branch
    pattern := .opening "else"
    shape := .map [⟨"else", .on⟩] }

/-- The rules for branch lines. -/
def branches : List Rule :=
  [ifBranch, elseIfBranch, elseBranch]

/-- The rules of one class, in the order in which they are tried. -/
def ofClass : LineClass → List Rule
  | .header => [header]
  | .branch => branches
  | .condition => conditions
  | .action => actions
  | .setting => settings

end Catalog

/-- All rules, in the order in which they are tried. -/
def catalog : List Rule :=
  Catalog.header :: Catalog.branches ++ Catalog.conditions ++ Catalog.actions ++ Catalog.settings

example : catalog.length = 90 := by decide

end RoutePolicy
