import RoutePolicy.Facts
import RoutePolicy.Value.Printer

/-!
# The report

A text for people about every policy of a configuration: its blocks, what the rules recognised, its
facts, and how long it took.  How long differs from run to run, so a mark stands for each duration.

The report is a list of lines; colours are terminal codes around parts of them, written only when
they are wanted.
-/

namespace RoutePolicy.Report

/-! ## Colours -/

/-- How a part of a line is shown. -/
inductive Style where
  | dim
  | bold
  | green
  | yellow
  | blue
  | cyan
  | gray
deriving DecidableEq, Repr

/-- The terminal code of a style. -/
def Style.code : Style → String
  | .dim => "2"
  | .bold => "1"
  | .green => "32"
  | .yellow => "33"
  | .blue => "34"
  | .cyan => "36"
  | .gray => "90"

/-- A text in a style, if colours are wanted. -/
def paint (colour : Bool) (style : Style) (text : String) : String :=
  if colour then "\x1b[" ++ style.code ++ "m" ++ text ++ "\x1b[0m" else text

@[simp] theorem paint_plain (style : Style) (text : String) : paint false style text = text := rfl

/-! ## Parts -/

/-- What stands for a duration. -/
def duration : String := "<time>"

/-- So many levels of indentation. -/
def indent (depth : Nat) : String :=
  String.ofList (List.replicate (2 * depth) ' ')

/-- A number as text. -/
def count (n : Nat) : String :=
  integerText n

/-- The heading of a part. -/
def heading (colour : Bool) (title : String) : List String :=
  ["", paint colour .gray ("━━━ " ++ title ++ " ━━━")]

/-- The lines for a branch. -/
def branchLine (colour : Bool) (depth : Nat) (b : Branch) : String :=
  indent depth ++ paint colour .blue b.kind.word ++ " " ++ b.condition ++ " "
    ++ paint colour .dim ("(" ++ count b.statements.length ++ " lines)")

/-- The lines for one level of a body. -/
def levelLines (colour : Bool) (depth : Nat) (l : Level) : List String :=
  (if l.globals = [] then []
    else [indent depth ++ paint colour .dim "global:" ++ " "
      ++ paint colour .yellow (count l.globals.length ++ " lines")])
    ++ l.branches.map (branchLine colour depth)

/-- The lines for a body whose top level stands at a depth. -/
def scopeLines (colour : Bool) (depth : Nat) : Scope → List String
  | .last level => levelLines colour depth level
  | .orElse level other =>
    levelLines colour depth level
      ++ (indent depth ++ paint colour .blue "else") :: scopeLines colour (depth + 1) other

/-- The lines for what the rules recognised. -/
def tallyLines (colour : Bool) (t : Tally) : List String :=
  let missed :=
    if t.unrecognized = [] then paint colour .dim "0"
    else paint colour .yellow (count t.unrecognized.length)
  ("  Recognized: " ++ paint colour .green (count t.recognized) ++ "  │  Unrecognized: " ++ missed)
    :: (t.hits.map fun hit =>
        "    " ++ paint colour .cyan hit.1 ++ " " ++ paint colour .dim ("×" ++ count hit.2))
    ++ (t.unrecognized.map fun line =>
        "    " ++ paint colour .yellow "?" ++ " " ++ paint colour .dim line)
    ++ (t.incomplete.map fun line =>
        "    " ++ paint colour .yellow "!" ++ " " ++ line ++ " "
          ++ paint colour .dim "(conditions incomplete)")

/-! ## The whole -/

/-- The lines for a policy and its facts. -/
def policyLines (colour : Bool) (t : Trace) (facts : Value) : List String :=
  ["", paint colour .bold (paint colour .cyan ("⚙  route-policy " ++ t.name))]
    ++ heading colour "Blocks" ++ scopeLines colour 1 t.scope
    ++ heading colour "Rules" ++ tallyLines colour t.tally
    ++ heading colour "Facts" ++ (Line.ofText facts.pretty).map ("  " ++ ·)
    ++ heading colour "Timing"
    ++ ["  Lines: " ++ paint colour .blue (count t.tally.lines) ++ "  │  Segment: "
      ++ paint colour .cyan duration ++ "  │  Resolve: " ++ paint colour .dim duration]

/-- The lines of the report. -/
def lines (colour : Bool) (traces : List Trace) (facts : List Value) : List String :=
  (if traces.isEmpty then ["", paint colour .dim "  No route-policy blocks found"] else [])
    ++ (traces.zip facts).flatMap (fun p => policyLines colour p.1 p.2)
    ++ ["", paint colour .dim "Total:" ++ " " ++ paint colour .green duration, ""]

/-- The text of the report. -/
def render (colour : Bool) (traces : List Trace) (facts : List Value) : String :=
  String.join ((lines colour traces facts).map (· ++ "\n"))

end RoutePolicy.Report
