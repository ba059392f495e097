import RoutePolicy.Device
import RoutePolicy.Document.Tally
import RoutePolicy.Value.Prune

/-!
# Facts

From a device to facts: list the policies, fetch each by its name, cut and resolve its body, then
check all documents against the schema and prune them.

* `trace`     one policy, with everything that was made of it;
* `collect`   every policy that the listing names, up to the first failure;
* `finish`    documents into facts;
* `gather`    both.
-/

namespace RoutePolicy

/-! ## One policy -/

/-- What was made of a policy; the document is not yet checked. -/
structure Trace where
  name : String
  scope : Scope
  document : List (String × Value)
  tally : Tally
deriving DecidableEq

/-- A policy read from a text. -/
def trace (strict : Bool) (name text : String) : Except Error Trace :=
  let body := bodyLines name text
  match segment strict body with
  | .error stray => .error (.strayBranch stray)
  | .ok scope =>
    .ok { name, scope, document := document name scope, tally := .ofScope body.length scope }

/-! ## Every policy of a device -/

section
variable {σ : Type}

/-- A command sent to a device. -/
def fetch (device : Device σ) (command : String) (s : σ) : Except Error String × σ :=
  match device.ask command s with
  | (.ok text, s) => (.ok text, s)
  | (.error failure, s) => (.error (.fetch command failure), s)

/-- Fetches and reads the named policies one after the other, up to the first failure. -/
def collectNames (device : Device σ) (strict : Bool) : List String → σ →
    Except Error (List Trace) × σ
  | [], s => (.ok [], s)
  | name :: names, s =>
    match fetch device (policyCommand name) s with
    | (.error e, s) => (.error e, s)
    | (.ok text, s) =>
      match trace strict name text with
      | .error e => (.error e, s)
      | .ok t =>
        match collectNames device strict names s with
        | (.error e, s) => (.error e, s)
        | (.ok ts, s) => (.ok (t :: ts), s)

/-- Fetches and reads every listed policy.  The listing is fetched too, unless it is given. -/
def collect (device : Device σ) (strict : Bool) (given : Option String) (s : σ) :
    Except Error (List Trace) × σ :=
  match given with
  | some text => collectNames device strict (policyNames text) s
  | none =>
    match fetch device namesCommand s with
    | (.error e, s) => (.error e, s)
    | (.ok text, s) => collectNames device strict (policyNames text) s

end

/-! ## Checking and pruning -/

/-- The facts of documents: all are checked, brought into declared form and pruned. -/
def finish (documents : List (List (String × Value))) : Except Error (List Value) :=
  match Schema.routeMaps.validate [] (.list (documents.map .dict)) with
  | .error fault => .error (.invalid fault)
  | .ok v => .ok (v.prune.items?.getD [])

/-- The facts of traced policies. -/
def factsOf (traces : List Trace) : Except Error (List Value) :=
  finish (traces.map Trace.document)

/-- The facts of every listed policy of a device. -/
def gather {σ : Type} (device : Device σ) (strict : Bool) (given : Option String) (s : σ) :
    Except Error (List Value) × σ :=
  match collect device strict given s with
  | (.error e, s) => (.error e, s)
  | (.ok traces, s) => (factsOf traces, s)

/-! ## A configuration text -/

/-- Every policy of a configuration. -/
def configTraces (strict : Bool) (config : String) : Except Error (List Trace) :=
  (collect (.runningConfig config) strict none ()).1

/-- The facts of a configuration. -/
def configFacts (strict : Bool) (config : String) : Except Error (List Value) :=
  (gather (.runningConfig config) strict none ()).1

/-- Every policy of a configuration, and the facts. -/
def configDetails (strict : Bool) (config : String) : Except Error (List Trace × List Value) :=
  match configTraces strict config with
  | .error e => .error e
  | .ok traces =>
    match factsOf traces with
    | .error e => .error e
    | .ok facts => .ok (traces, facts)

end RoutePolicy
