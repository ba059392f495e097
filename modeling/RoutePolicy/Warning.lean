import RoutePolicy.Facts

/-!
# Warnings

What is out of order in a policy that is read all the same.  The lenient reading takes a stray
branch line and warns of it, and either reading warns of a clause that no rule recognises, since
the conditions of its branch are then not all.

The warnings of a policy come in the order in which it is read: first its lines, then the clauses of
its branches.  A policy that is refused gives no warnings, and ends those of the policies behind it.
Messages below a warning are left out.
-/

namespace RoutePolicy

inductive Warning where
  | strayBranch (stray : StrayBranch)
  | lostClause (clause branch : String)
deriving DecidableEq, Repr

namespace Warning

/-- What a warning says. -/
def message : Warning → String
  | .strayBranch _ => "branch without a preceding `if` in its scope"
  | .lostClause _ _ => "condition not recognized, branch conditions are incomplete"

/-- What a warning is about. -/
def fields : Warning → List (String × String)
  | .strayBranch stray => [("line", integerText stray.number), ("text", "\"" ++ stray.text ++ "\"")]
  | .lostClause clause branch => [("clause", clause), ("branch", branch)]

end Warning

/-! ## One policy -/

/-- The stray lines of what is left of a body, where `number` is the number of the next line and
`opened` says whether its scope has a branch already.  A stray `elseif` opens a branch, and a stray
`else` a scope. -/
def strayLines (opened : Bool) (number : Nat) : List String → List StrayBranch
  | [] => []
  | line :: rest =>
    let stray : List StrayBranch := if opened then [] else [{ number, text := Line.trim line }]
    match boundary? (Line.trim line) with
    | none => strayLines opened (number + 1) rest
    | some (.branch .ifThen _) => strayLines true (number + 1) rest
    | some (.branch .elseIf _) => stray ++ strayLines true (number + 1) rest
    | some .otherwise => stray ++ strayLines false (number + 1) rest

/-- The clauses of a branch that no rule recognises. -/
def Branch.lostClauses (b : Branch) : List String :=
  b.clauseEvents.filterMap Event.missed?

/-- The warnings of a body that is read. -/
def bodyWarnings (lines : List String) : List Warning :=
  (strayLines false 1 lines).map .strayBranch
    ++ (Scope.ofLines lines).allBranches.flatMap fun b =>
      b.lostClauses.map fun clause => .lostClause clause b.line

/-! ## Every policy of a device -/

section
variable {σ : Type}

/-- The warnings along `collectNames`. -/
def collectNamesWarnings (device : Device σ) (strict : Bool) : List String → σ → List Warning
  | [], _ => []
  | name :: names, s =>
    match fetch device (policyCommand name) s with
    | (.error _, _) => []
    | (.ok text, s) =>
      match trace strict name text with
      | .error _ => []
      | .ok _ => bodyWarnings (bodyLines name text) ++ collectNamesWarnings device strict names s

/-- The warnings along `collect`. -/
def collectWarnings (device : Device σ) (strict : Bool) (given : Option String) (s : σ) :
    List Warning :=
  match given with
  | some text => collectNamesWarnings device strict (policyNames text) s
  | none =>
    match fetch device namesCommand s with
    | (.error _, _) => []
    | (.ok text, s) => collectNamesWarnings device strict (policyNames text) s

end

/-- The warnings along `configTraces`.  Documents are checked without a warning, so these are also
the warnings along `configFacts` and `configDetails`. -/
def configWarnings (strict : Bool) (config : String) : List Warning :=
  collectWarnings (.runningConfig config) strict none ()

end RoutePolicy
