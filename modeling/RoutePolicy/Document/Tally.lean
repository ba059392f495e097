import RoutePolicy.Document.Resolve

/-!
# Tallies

What the rules made of a body: how often each rule matched, which statements and clauses no rule
recognised, and which branches lost a clause that way.  A branch that lost a clause applies in
other cases than its `conditions` say, so it is listed as incomplete.

Everything is read off the list of events, in body order; the clauses of a branch come before its
statements.
-/

namespace RoutePolicy

/-- What happened to one statement or clause. -/
inductive Event where
  | hit (rule : String)
  | miss (text : String)
deriving DecidableEq, Repr

namespace Event

/-- The event for a text, read by rules of some classes. -/
def ofText (allowed : LineClass → Bool) (text : String) : Event :=
  match recognize allowed text with
  | some m => .hit m.rule.name
  | none => .miss text

/-- The name of the rule that matched. -/
def rule? : Event → Option String
  | .hit rule => some rule
  | .miss _ => none

/-- The text that no rule matched. -/
def missed? : Event → Option String
  | .hit _ => none
  | .miss text => some text

end Event

/-! ## Events in body order -/

/-- The events of statement lines. -/
def statementEvents (lines : List String) : List Event :=
  lines.map (Event.ofText LineClass.isStatement)

namespace Branch

/-- The events of a branch's clauses. -/
def clauseEvents (b : Branch) : List Event :=
  b.clauses.map (Event.ofText (· = .condition))

/-- The events of a branch. -/
def events (b : Branch) : List Event :=
  b.clauseEvents ++ statementEvents b.statements

/-- Whether a clause of the branch was not recognised. -/
def isIncomplete (b : Branch) : Bool :=
  b.clauseEvents.any fun e => e.missed?.isSome

end Branch

/-- The events of a level. -/
def Level.events (l : Level) : List Event :=
  statementEvents l.globals ++ l.branches.flatMap Branch.events

/-- The events of a scope. -/
def Scope.events (s : Scope) : List Event :=
  s.levels.flatMap Level.events

/-- All branches of a scope. -/
def Scope.allBranches (s : Scope) : List Branch :=
  s.levels.flatMap Level.branches

/-! ## Counting -/

/-- Adds one to the count of a name; a new name goes to the end. -/
def countOne (counts : List (String × Nat)) (name : String) : List (String × Nat) :=
  Entries.insert name ((Entries.get? name counts).getD 0 + 1) counts

/-- How often each name occurs, in order of first occurrence. -/
def countAll (names : List String) : List (String × Nat) :=
  names.foldl countOne []

/-- The tally of a policy. -/
structure Tally where
  /-- the number of body lines -/
  lines : Nat
  /-- how often each rule matched, in order of first match -/
  hits : List (String × Nat)
  /-- the statements and clauses that no rule recognised, in body order -/
  unrecognized : List String
  /-- the lines of the branches that lost a clause, each once, in body order -/
  incomplete : List String
deriving DecidableEq, Repr

namespace Tally

/-- The number of recognised statements and clauses. -/
def recognized (t : Tally) : Nat :=
  t.hits.foldr (fun hit n => hit.2 + n) 0

/-- The tally of a scope cut from a body of so many lines. -/
def ofScope (lines : Nat) (s : Scope) : Tally :=
  { lines
    hits := countAll (s.events.filterMap Event.rule?)
    unrecognized := s.events.filterMap Event.missed?
    incomplete := ((s.allBranches.filter Branch.isIncomplete).map Branch.line).eraseDups }

end Tally

end RoutePolicy
