import RoutePolicy.Command.Run

/-!
# The command

Reads the input, runs the command and writes what it leaves behind.
-/

open RoutePolicy.Command

/-- Writes an outcome and gives its exit code. -/
def RoutePolicy.Command.Outcome.emit (outcome : Outcome) : IO UInt32 := do
  IO.print outcome.stdout
  IO.eprint (outcome.stderr Log.lines)
  return outcome.exit.toUInt32

/-- Turns the policies of a configuration into facts. -/
def main (words : List String) : IO UInt32 := do
  match Options.ofWords words with
  | .error ending => ending.outcome.emit
  | .ok options =>
    try
      let config ← match options.file? with
        | some file => IO.FS.readFile file
        | none => do (← IO.getStdin).readToEnd
      (execute (← (← IO.getStdout).isTty) options config).emit
    catch e => (Outcome.refused (toString e)).emit
