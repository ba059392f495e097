import RoutePolicy.Condition.Clause
import RoutePolicy.Scope.Segment
import RoutePolicy.Value.Merge

/-!
# Policy documents

A document says what a policy does:

* `global`   the statements before any branch;
* `if`       the first `if` branch: its `conditions`, then its statements;
* `elif`     all other branches, in order;
* `else`     the same again for the scope below.

Statements merge into one mapping (`foldStatements`); each recognised clause of a condition is one
item of `conditions`.  Lines and clauses that no rule recognises contribute nothing.
-/

namespace RoutePolicy

/-! ## Blocks -/

/-- The mapping that statement lines merge to. -/
def foldStatements (lines : List String) : List (String × Value) :=
  lines.foldl (fun acc line =>
    match recognize LineClass.isStatement line with
    | some m => Value.merge acc m.fragment
    | none => acc) []

@[simp] theorem foldStatements_nil : foldStatements [] = [] := rfl

/-- What a clause says, if a rule recognises it. -/
def clauseValue? (clause : String) : Option Value :=
  (recognize (· = .condition) clause).bind fun m => Entries.get? "conditions" m.fragment

namespace Branch

/-- The clauses of a branch's condition. -/
def clauses (b : Branch) : List String :=
  RoutePolicy.clauses b.condition

/-- What the recognised clauses of a branch say, in order. -/
def conditions (b : Branch) : List Value :=
  b.clauses.filterMap clauseValue?

/-- The block of a branch: its conditions, then its statements. -/
def block (b : Branch) : List (String × Value) :=
  let conditions := if b.conditions = [] then [] else [("conditions", .list b.conditions)]
  Value.merge conditions (foldStatements b.statements)

end Branch

/-! ## Levels and scopes -/

namespace Level

/-- The first `if` branch. -/
def ifBranch? (l : Level) : Option Branch :=
  l.branches.find? fun b => b.kind = .ifThen

/-- All branches but the first `if` branch. -/
def otherBranches (l : Level) : List Branch :=
  l.branches.eraseP fun b => b.kind = .ifThen

/-- The entries of a document for one level. -/
def resolve (l : Level) : List (String × Value) :=
  let globals := foldStatements l.globals
  let others := l.otherBranches.map fun b => Value.dict b.block
  (if globals = [] then [] else [("global", .dict globals)])
    ++ (l.ifBranch?.toList.map fun b => ("if", .dict b.block))
    ++ (if others = [] then [] else [("elif", .list others)])

end Level

/-- The entries of a document for a scope; an `else` with nothing to say is left out. -/
def Scope.resolve : Scope → List (String × Value)
  | .last level => level.resolve
  | .orElse level other =>
    let below := other.resolve
    level.resolve ++ if below = [] then [] else [("else", .dict below)]

/-- The document of a policy. -/
def document (name : String) (s : Scope) : List (String × Value) :=
  ("name", .str name) :: s.resolve

end RoutePolicy
