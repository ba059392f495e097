import RoutePolicy.Recognition
import RoutePolicy.Scope.Basic

/-!
# Cutting a body into scopes

Only branch lines shape a body; every other line goes where it stands.  Read from the last line to
the first, a line that is no boundary joins the lines before the first branch, a branch line takes
those lines as its statements, and an `else` puts all that follows one scope deeper.

An `elseif` or `else` is *stray* when no branch stands before it in its scope.  The strict reading
refuses a body with a stray line; the lenient one takes every body.
-/

namespace RoutePolicy

/-! ## Boundaries -/

/-- A line that shapes a body: the start of a branch, or an `else`. -/
inductive Boundary where
  | branch (kind : BranchKind) (condition : String)
  | otherwise
deriving DecidableEq, Repr

/-- The boundary that a line is, if it is one. -/
def boundary? (line : String) : Option Boundary :=
  (recognize (· = .branch) line).map fun m =>
    let condition := (m.text? "condition").getD ""
    if m.rule.leaf = "if" then .branch .ifThen condition
    else if m.rule.leaf = "elseif" then .branch .elseIf condition
    else .otherwise

/-! ## Segments -/

/-- Puts a trimmed line on top of a scope. -/
def Scope.addLine (line : String) (s : Scope) : Scope :=
  match boundary? line with
  | none => s.mapLevel fun l => { l with globals := line :: l.globals }
  | some (.branch kind condition) =>
    s.mapLevel fun l =>
      { branches := { kind, line, condition, statements := l.globals } :: l.branches }
  | some .otherwise => .orElse {} s

/-- The scope of a body; its lines are trimmed. -/
def Scope.ofLines : List String → Scope
  | [] => .last {}
  | line :: rest => (Scope.ofLines rest).addLine (Line.trim line)

@[simp] theorem Scope.ofLines_nil : Scope.ofLines [] = .last {} := rfl

theorem Scope.ofLines_cons (line : String) (rest : List String) :
    Scope.ofLines (line :: rest) = (Scope.ofLines rest).addLine (Line.trim line) := rfl

/-! ## Stray branch lines -/

/-- A stray branch line: its number in the body, counted from one, and its trimmed text. -/
structure StrayBranch where
  number : Nat
  text : String
deriving DecidableEq, Repr

/-- The first stray line of what is left of a body, where `number` is the number of the next line
and `opened` says whether its scope has a branch already. -/
def firstStray (opened : Bool) (number : Nat) : List String → Option StrayBranch
  | [] => none
  | line :: rest =>
    match boundary? (Line.trim line) with
    | none => firstStray opened (number + 1) rest
    | some (.branch .ifThen _) => firstStray true (number + 1) rest
    | some (.branch .elseIf _) =>
      if opened then firstStray true (number + 1) rest
      else some { number, text := Line.trim line }
    | some .otherwise =>
      if opened then firstStray false (number + 1) rest
      else some { number, text := Line.trim line }

/-- Cuts a body into scopes; the strict reading refuses the first stray line. -/
def segment (strict : Bool) (lines : List String) : Except StrayBranch Scope :=
  match strict, firstStray false 1 lines with
  | true, some stray => .error stray
  | _, _ => .ok (Scope.ofLines lines)

theorem segment_lenient (lines : List String) :
    segment false lines = .ok (Scope.ofLines lines) := rfl

end RoutePolicy
