import RoutePolicy.Value.Basic

/-!
# Scopes

The body of a policy is a scope: the statements before any branch, then the branches, each with its
statements.  An `else` ends the branches and opens a further scope of the same form below it, so a
body is a chain of levels.

`Scope.render` writes a scope as lines again.
-/

namespace RoutePolicy

/-- The keyword that opens a branch. -/
inductive BranchKind where
  | ifThen
  | elseIf
deriving DecidableEq, Repr

/-- The keyword. -/
def BranchKind.word : BranchKind → String
  | .ifThen => "if"
  | .elseIf => "elseif"

/-- A branch: the line that opens it, with its keyword and its condition, and the lines up to the
next branch or the end of the level. -/
structure Branch where
  kind : BranchKind
  line : String
  condition : String
  statements : List String
deriving DecidableEq, Repr

/-- One level of a body: the lines before the first branch, and the branches in order. -/
structure Level where
  globals : List String := []
  branches : List Branch := []
deriving DecidableEq, Repr

/-- A body, or what stands under an `else`: a level, and perhaps a scope under its `else`. -/
inductive Scope where
  | last (level : Level)
  | orElse (level : Level) (other : Scope)
deriving DecidableEq, Repr

namespace Scope

/-- The level at the top. -/
def level : Scope → Level
  | .last level => level
  | .orElse level _ => level

/-- The scope under the `else` of the top level. -/
def other? : Scope → Option Scope
  | .last _ => none
  | .orElse _ other => some other

/-- All levels, from the top down. -/
def levels : Scope → List Level
  | .last level => [level]
  | .orElse level other => level :: other.levels

/-- The scope with its top level changed. -/
def mapLevel (f : Level → Level) : Scope → Scope
  | .last level => .last (f level)
  | .orElse level other => .orElse (f level) other

/-- The number of scopes under `else`. -/
def elseDepth : Scope → Nat
  | .last _ => 0
  | .orElse _ other => other.elseDepth + 1

/-- The first branch of the top level that an `if` opens. -/
def ifBranch? (s : Scope) : Option Branch :=
  s.level.branches.find? fun b => b.kind = .ifThen

/-- The statements of the first branch of the top level that this line opens. -/
def statementsFor? (s : Scope) (line : String) : Option (List String) :=
  (s.level.branches.find? fun b => b.line = line).map Branch.statements

@[simp] theorem level_mapLevel (f : Level → Level) (s : Scope) :
    (s.mapLevel f).level = f s.level := by
  cases s <;> rfl

@[simp] theorem other?_mapLevel (f : Level → Level) (s : Scope) :
    (s.mapLevel f).other? = s.other? := by
  cases s <;> rfl

@[simp] theorem elseDepth_mapLevel (f : Level → Level) (s : Scope) :
    (s.mapLevel f).elseDepth = s.elseDepth := by
  cases s <;> rfl

end Scope

/-! ## Writing a scope as lines -/

/-- The lines of a branch. -/
def Branch.render (b : Branch) : List String :=
  b.line :: b.statements

/-- The lines of a level. -/
def Level.render (l : Level) : List String :=
  l.globals ++ l.branches.flatMap Branch.render

/-- The lines of a scope, with a line `else` between its levels. -/
def Scope.render : Scope → List String
  | .last level => level.render
  | .orElse level other => level.render ++ "else" :: other.render

/-! ## Writing a scope as a value -/

/-- A branch as a mapping. -/
def Branch.toValue (b : Branch) : Value :=
  .dict [("kind", .str b.kind.word), ("line", .str b.line), ("condition", .str b.condition),
    ("statements", .ofStrings b.statements)]

/-- The entries of a level; what is empty is left out. -/
def Level.entries (l : Level) : List (String × Value) :=
  (if l.globals = [] then [] else [("global", .ofStrings l.globals)])
    ++ (if l.branches = [] then [] else [("branches", .list (l.branches.map Branch.toValue))])

/-- A scope as a mapping. -/
def Scope.toValue : Scope → Value
  | .last level => .dict level.entries
  | .orElse level other => .dict (level.entries ++ [("else", other.toValue)])

end RoutePolicy
