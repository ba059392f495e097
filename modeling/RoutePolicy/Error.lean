import RoutePolicy.Schema.Validate
import RoutePolicy.Scope.Segment

/-!
# Errors

What can go wrong on the way from a device to facts: a command gets no answer, a body has a stray
branch line under the strict reading, or a document does not fit the schema.
-/

namespace RoutePolicy

/-- Why a device gave no answer to a command. -/
inductive FetchFailure where
  | missingPolicy (name : String)
  | unsupportedCommand (command : String)
  | noResponse (command : String)
  | reported (reason : String)
deriving DecidableEq, Repr

/-- The message for a missing answer. -/
def FetchFailure.message : FetchFailure → String
  | .missingPolicy name => "no route-policy named '" ++ name ++ "' in the running configuration"
  | .unsupportedCommand command => "unsupported command '" ++ command ++ "'"
  | .noResponse command => "no response for '" ++ command ++ "'"
  | .reported reason => reason

/-- Why there are no facts. -/
inductive Error where
  | fetch (command : String) (failure : FetchFailure)
  | strayBranch (stray : StrayBranch)
  | invalid (fault : Fault)
deriving DecidableEq

namespace Error

/-- The message for an error. -/
def message : Error → String
  | .fetch command _ => "fetching '" ++ command ++ "' failed"
  | .strayBranch stray =>
    "line " ++ integerText stray.number ++ ": '" ++ stray.text
      ++ "' has no preceding 'if' in its scope"
  | .invalid fault => fault.message

/-- The message for what lies behind an error, if something does. -/
def cause? : Error → Option String
  | .fetch _ failure => some failure.message
  | _ => none

end Error

end RoutePolicy
