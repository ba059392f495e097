import RoutePolicy.Command.Options
import RoutePolicy.Report
import RoutePolicy.Store
import RoutePolicy.Warning

/-!
# Running the command

The command reads a configuration and prints one of three things: the facts, the scopes of every
policy (`--tree`), or the report (`--verbose`).  It exits with 0 on success, with 1 when there are
no facts, and with 2 when the command line or the input cannot be read.

Two things go to the standard error output: first the warnings of the run, by way of a log, then
the message about what went wrong.  Which warnings the log shows, and how, is set where the command
runs, so the log is a parameter of that text and of nothing else.
-/

namespace RoutePolicy.Command

/-! ## The log -/

/-- How a warning is shown: the text for it, which is empty if it is not shown. -/
abbrev Log := Warning → String

/-- The log that shows nothing. -/
def Log.off : Log :=
  fun _ => ""

/-- The log that shows every warning, in a line of its own.  Times and colours are left out. -/
def Log.lines : Log := fun warning =>
  "WARN " ++ warning.message
    ++ String.join (warning.fields.map fun field => " " ++ field.1 ++ "=" ++ field.2) ++ "\n"

/-! ## Outcomes -/

/-- What a run leaves behind: its exit code, what it printed, the warnings it gave on the way, and
its message about what went wrong. -/
structure Outcome where
  exit : Nat
  stdout : String := ""
  warnings : List Warning := []
  message : String := ""
deriving DecidableEq, Repr

namespace Outcome

/-- The text on the standard error output. -/
def stderr (outcome : Outcome) (log : Log := Log.off) : String :=
  String.join (outcome.warnings.map log) ++ outcome.message

/-- A run that printed a text. -/
def success (warnings : List Warning) (text : String) : Outcome :=
  { exit := 0, stdout := text, warnings }

/-- A run that found no facts. -/
def failure (warnings : List Warning) (e : Error) : Outcome :=
  let cause := match e.cause? with
    | some text => "  caused by: " ++ text ++ "\n"
    | none => ""
  { exit := 1, warnings, message := "error: " ++ e.message ++ "\n" ++ cause }

/-- A run that did not start. -/
def refused (text : String) : Outcome :=
  { exit := 2, message := "error: " ++ text ++ "\n" }

end Outcome

/-! ## A configuration -/

/-- A value as a line, or as several lines if that is wanted. -/
def printed (pretty : Bool) (v : Value) : String :=
  (if pretty then v.pretty else v.compact) ++ "\n"

/-- The scopes of traced policies. -/
def treeValue (traces : List Trace) : Value :=
  .list (traces.map fun t => .dict [("name", .str t.name), ("body", t.scope.toValue)])

/-- Runs the command on a configuration; `terminal` says whether the output is a terminal. -/
def execute (terminal : Bool) (options : Options) (config : String) : Outcome :=
  let warnings := configWarnings options.strict config
  if options.verbose then
    match configDetails options.strict config with
    | .error e => .failure warnings e
    | .ok (traces, facts) =>
      .success warnings
        (Report.render (!options.noColor && (options.color || terminal)) traces facts)
  else if options.tree then
    match configTraces options.strict config with
    | .error e => .failure warnings e
    | .ok traces => .success warnings (printed options.pretty (treeValue traces))
  else
    let store : Store := {}
    match (store.populate (.runningConfig config) options.strict none ()).1 with
    | (.error e, _) => .failure warnings e
    | (.ok (), store) => .success warnings (printed options.pretty store.toValue)

/-! ## A command line -/

/-- The text for `--help`, laid out as option readers do. -/
def helpText : String :=
  String.join <| List.map (· ++ "\n")
    ["A rule-based parser that turns IOS-XR route-policy configuration into structured, "
      ++ "schema-validated facts.",
    "",
    "Usage: rpl-facts [OPTIONS]",
    "",
    "Options:",
    "  -i, --input <FILE>  Configuration file. Reads stdin when omitted or `-`",
    "      --strict        "
      ++ "Reject `elseif` / `else` lines with no preceding branch in their scope",
    "      --tree          Print the segmented block tree of every policy instead of facts",
    "  -v, --verbose       Print a per-policy report (rule hits, unrecognized lines, timing)",
    "      --color         Force ANSI colour in the verbose report",
    "      --no-color      Disable ANSI colour in the verbose report",
    "  -p, --pretty        Pretty-print JSON output",
    "  -h, --help          Print help",
    "  -V, --version       Print version"]

/-- What is left behind when a command line has no options. -/
def Ending.outcome : Ending → Outcome
  | .refused e => .refused e.message
  | .help => .success [] helpText
  | .version => .success [] "rpl-facts 0.1.0\n"

/-- The file that the options name; the standard input when there is none. -/
def Options.file? (options : Options) : Option String :=
  options.input.filter (· ≠ "-")

/-- Runs the command, given its words, the standard input and the texts of the files that can be
read. -/
def run (terminal : Bool) (files : String → Option String) (words : List String)
    (stdin : String) : Outcome :=
  match Options.ofWords words with
  | .error ending => ending.outcome
  | .ok options =>
    match options.file? with
    | none => execute terminal options stdin
    | some file =>
      match files file with
      | some config => execute terminal options config
      | none => .refused ("cannot read " ++ file)

end RoutePolicy.Command
