import RoutePolicy.Config.Body
import RoutePolicy.Error

/-!
# Devices

A device answers show commands with text, and may change state as it does.  Two devices are given
here:

* `runningConfig`   holds a whole configuration and answers the two commands that facts need;
* `transcript`      answers from a table of recorded answers and keeps a log of what was asked.
-/

namespace RoutePolicy

/-- A device with states in `σ` that answers commands. -/
structure Device (σ : Type) where
  ask : String → σ → Except FetchFailure String × σ

/-! ## Commands -/

/-- The command that lists the lines which mention policies. -/
def namesCommand : String := "show running-config | include route-policy"

/-- The command that shows a policy, without the name. -/
def policyCommandWords : String := "show running-config route-policy"

/-- The command that shows a policy. -/
def policyCommand (name : String) : String :=
  policyCommandWords ++ " " ++ name

/-- The policy that a command shows. -/
def commandPolicy? (command : String) : Option String :=
  match Pattern.afterText policyCommandWords.toList command.toList with
  | some after =>
    let name := Text.trim after
    if name = [] then none else some (String.ofList name)
  | none => none

/-! ## A device with a configuration -/

/-- The lines of a configuration that mention policies. -/
def listing (config : String) : String :=
  Line.join ((Line.ofText config).filter fun line =>
    Text.occursIn "route-policy".toList line.toList)

/-- The answer of a device that holds this configuration. -/
def configAnswer (config command : String) : Except FetchFailure String :=
  if command = namesCommand then .ok (listing config)
  else
    match commandPolicy? command with
    | none => .error (.unsupportedCommand command)
    | some name =>
      match policyBlock name config with
      | [] => .error (.missingPolicy name)
      | line :: lines => .ok (Line.join (line :: lines))

/-- A device that holds a configuration and has no other state. -/
def Device.runningConfig (config : String) : Device Unit where
  ask command s := (configAnswer config command, s)

/-! ## A device with recorded answers -/

/-- A device that answers from a table; its state is the log of the commands so far. -/
def Device.transcript (answers : List (String × String)) : Device (List String) where
  ask command log :=
    let answer := match Entries.get? command answers with
      | some text => Except.ok text
      | none => .error (.noResponse command)
    (answer, log ++ [command])

end RoutePolicy
