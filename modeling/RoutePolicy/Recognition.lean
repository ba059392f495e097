import RoutePolicy.Catalog

/-!
# Recognising lines

`recognize` finds the rule for one line.  The class of the line is read off its first word; if the
class is allowed, the rules of that class are tried in catalog order and the first that matches
owns the line.  A line that no rule matches is not recognised, which is no error.

A scan over several lines carries a `ScanContext` along: the name that the latest header gave.
-/

namespace RoutePolicy

/-- The first rule of an allowed class that matches a line, blanks around it aside. -/
def recognize (allowed : LineClass → Bool) (line : String) : Option Match :=
  let cs := Text.trim line.toList
  let lineClass := LineClass.ofLine cs
  if allowed lineClass then (Catalog.ofClass lineClass).findSome? fun rule => rule.match? cs
  else none

/-- What earlier lines of a scan established: the name in the latest policy header. -/
structure ScanContext where
  name : Option String := none
deriving DecidableEq, Repr

namespace ScanContext

/-- The context after a recognised line: a header sets the name, any other line leaves it. -/
def absorb (context : ScanContext) (m : Match) : ScanContext :=
  if m.rule.lineClass = .header then
    match m.text? "name" with
    | some name => { name := some name }
    | none => context
  else context

end ScanContext

/-- Recognises one line of a scan, in a context, and returns the context for the next. -/
def scanLine (allowed : LineClass → Bool) (line : String) (context : ScanContext) :
    Option Match × ScanContext :=
  match recognize allowed line with
  | some m => (some m, context.absorb m)
  | none => (none, context)

end RoutePolicy
