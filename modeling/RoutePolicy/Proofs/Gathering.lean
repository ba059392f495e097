import RoutePolicy.Proofs.Validation

/-!
# Gathering from a device

What a run that gathers policies can fail with, and what it depends on.  A device may answer the same
command differently each time; what a run makes of it depends on the answers that were given in that
run and on nothing else.

* `collect_error`            reading policies fails at a command or at a stray branch;
* `factsOf_error`            checking them fails at a fault of a document;
* `collectNames_recorded`    a device that keeps a log behaves as without it;
* `gather_congr`             runs that get the same answers have the same result.
-/

namespace RoutePolicy

/-! ## Failures -/

theorem trace_error {strict : Bool} {name text : String} {e : Error}
    (h : trace strict name text = .error e) : ∃ stray, e = .strayBranch stray := by
  simp only [trace] at h
  split at h
  · exact ⟨_, (Except.error.inj h).symm⟩
  · cases h

theorem trace_ok {strict : Bool} {name text : String} {t : Trace}
    (h : trace strict name text = .ok t) : t.name = name ∧ t.document = document t.name t.scope := by
  simp only [trace] at h
  split at h
  · cases h
  · obtain rfl := Except.ok.inj h
    exact ⟨rfl, rfl⟩

theorem factsOf_error {traces : List Trace} {e : Error} (h : factsOf traces = .error e) :
    ∃ fault, e = .invalid fault := by
  rw [factsOf, finish_eq] at h
  split at h
  · exact ⟨_, (Except.error.inj h).symm⟩
  · cases h

section
variable {σ τ : Type}

/-- An error that arises before any document is checked. -/
def Error.IsEarly : Error → Prop
  | .fetch _ _ => True
  | .strayBranch _ => True
  | .invalid _ => False

/-! ### One policy

Fetched and read, it is followed by the others; unless the fetch fails, or the body is refused. -/

section
variable {device : Device σ} {strict : Bool} {name text : String} {names : List String} {s s' : σ}

theorem collectNames_of_fetch_error {failure : FetchFailure}
    (hask : device.ask (policyCommand name) s = (.error failure, s')) :
    collectNames device strict (name :: names) s
      = (.error (.fetch (policyCommand name) failure), s') := by
  simp only [collectNames, fetch, hask]

theorem collectNames_of_trace_error {e : Error}
    (hask : device.ask (policyCommand name) s = (.ok text, s'))
    (htrace : trace strict name text = .error e) :
    collectNames device strict (name :: names) s = (.error e, s') := by
  simp only [collectNames, fetch, hask, htrace]

theorem collectNames_of_trace_ok {t : Trace}
    (hask : device.ask (policyCommand name) s = (.ok text, s'))
    (htrace : trace strict name text = .ok t) :
    collectNames device strict (name :: names) s
      = ((collectNames device strict names s').1.map (t :: ·),
          (collectNames device strict names s').2) := by
  simp only [collectNames, fetch, hask, htrace]
  rcases collectNames device strict names s' with ⟨_ | _, _⟩ <;> rfl

end

theorem collectNames_error {device : Device σ} {strict : Bool} {names : List String} {s : σ}
    {e : Error} (h : (collectNames device strict names s).1 = .error e) : e.IsEarly := by
  induction names generalizing s with
  | nil => cases h
  | cons name names ih =>
    rcases hask : device.ask (policyCommand name) s with ⟨failure | text, s'⟩
    · rw [collectNames_of_fetch_error hask] at h
      rw [← Except.error.inj h]
      trivial
    · cases htrace : trace strict name text with
      | error e' =>
        rw [collectNames_of_trace_error hask htrace] at h
        obtain ⟨stray, rfl⟩ := trace_error htrace
        rw [← Except.error.inj h]
        trivial
      | ok t =>
        rw [collectNames_of_trace_ok hask htrace] at h
        cases hrest : (collectNames device strict names s').1 with
        | error e' =>
          rw [hrest] at h
          obtain rfl := Except.error.inj h
          exact ih hrest
        | ok ts =>
          rw [hrest] at h
          cases h

theorem collect_of_names_error {device : Device σ} {strict : Bool} {s s' : σ}
    {failure : FetchFailure} (hask : device.ask namesCommand s = (.error failure, s')) :
    collect device strict none s = (.error (.fetch namesCommand failure), s') := by
  simp only [collect, fetch, hask]

theorem collect_of_names_ok {device : Device σ} {strict : Bool} {s s' : σ} {text : String}
    (hask : device.ask namesCommand s = (.ok text, s')) :
    collect device strict none s = collectNames device strict (policyNames text) s' := by
  simp only [collect, fetch, hask]

theorem collect_error {device : Device σ} {strict : Bool} {given : Option String} {s : σ} {e : Error}
    (h : (collect device strict given s).1 = .error e) : e.IsEarly := by
  cases given with
  | some text => exact collectNames_error h
  | none =>
    rcases hask : device.ask namesCommand s with ⟨failure | text, s'⟩
    · rw [collect_of_names_error hask] at h
      rw [← Except.error.inj h]
      trivial
    · rw [collect_of_names_ok hask] at h
      exact collectNames_error h

/-! ## Answers -/

/-- The device, with a log of what it was asked and what it answered. -/
def Device.recorded (device : Device σ) :
    Device (σ × List (String × Except FetchFailure String)) where
  ask command state :=
    let (answer, s) := device.ask command state.1
    (answer, (s, state.2 ++ [(command, answer)]))

/-- What the device is asked and answers while the policies of a run are collected. -/
def exchange (device : Device σ) (strict : Bool) (given : Option String) (s : σ) :
    List (String × Except FetchFailure String) :=
  (collect device.recorded strict given (s, [])).2.2

/-- The answers that a run gets. -/
def answers (device : Device σ) (strict : Bool) (given : Option String) (s : σ) :
    List (Except FetchFailure String) :=
  (exchange device strict given s).map Prod.snd

/-- The part of an exchange that is about these policies. -/
def exchangeNames (device : Device σ) (strict : Bool) :
    List String → σ → List (String × Except FetchFailure String)
  | [], _ => []
  | name :: names, s =>
    match device.ask (policyCommand name) s with
    | (.error failure, _) => [(policyCommand name, .error failure)]
    | (.ok text, s) =>
      (policyCommand name, .ok text) :: match trace strict name text with
        | .error _ => []
        | .ok _ => exchangeNames device strict names s

theorem ask_recorded {device : Device σ} {command : String} {s s' : σ}
    {answer : Except FetchFailure String} (hask : device.ask command s = (answer, s'))
    (log : List (String × Except FetchFailure String)) :
    device.recorded.ask command (s, log) = (answer, (s', log ++ [(command, answer)])) := by
  simp only [Device.recorded, hask]

theorem collectNames_recorded (device : Device σ) (strict : Bool) (names : List String) (s : σ)
    (log : List (String × Except FetchFailure String)) :
    collectNames device.recorded strict names (s, log)
      = ((collectNames device strict names s).1, ((collectNames device strict names s).2,
          log ++ exchangeNames device strict names s)) := by
  induction names generalizing s log with
  | nil =>
    rw [exchangeNames, List.append_nil]
    rfl
  | cons name names ih =>
    rcases hask : device.ask (policyCommand name) s with ⟨failure | text, s'⟩
    · rw [collectNames_of_fetch_error hask, collectNames_of_fetch_error (ask_recorded hask log)]
      simp only [exchangeNames, hask]
    · cases htrace : trace strict name text with
      | error e =>
        rw [collectNames_of_trace_error hask htrace,
          collectNames_of_trace_error (ask_recorded hask log) htrace]
        simp only [exchangeNames, hask, htrace]
      | ok t =>
        rw [collectNames_of_trace_ok hask htrace,
          collectNames_of_trace_ok (ask_recorded hask log) htrace, ih]
        simp only [exchangeNames, hask, htrace, List.append_assoc, List.singleton_append]

/-- Runs over the same names that get the same answers have the same result. -/
theorem collectNames_congr {device : Device σ} {other : Device τ} {strict : Bool}
    {names : List String} {s : σ} {s' : τ}
    (h : (exchangeNames device strict names s).map Prod.snd
      = (exchangeNames other strict names s').map Prod.snd) :
    (collectNames device strict names s).1 = (collectNames other strict names s').1 := by
  induction names generalizing s s' with
  | nil => rfl
  | cons name names ih =>
    -- the first answers are the same, so both runs go on or stop in the same way
    rcases hask : device.ask (policyCommand name) s with ⟨failure | text, t⟩ <;>
      rcases hask' : other.ask (policyCommand name) s' with ⟨failure' | text', t'⟩ <;>
      simp only [exchangeNames, hask, hask', List.map_cons, List.map_nil, List.cons.injEq,
        Except.error.injEq, Except.ok.injEq, reduceCtorEq, false_and, and_true] at h
    · rw [collectNames_of_fetch_error hask, collectNames_of_fetch_error hask', h]
    · obtain ⟨rfl, hrest⟩ := h
      cases htrace : trace strict name text with
      | error e =>
        rw [collectNames_of_trace_error hask htrace, collectNames_of_trace_error hask' htrace]
      | ok made =>
        simp only [htrace] at hrest
        rw [collectNames_of_trace_ok hask htrace, collectNames_of_trace_ok hask' htrace, ih hrest]

theorem exchange_some (device : Device σ) (strict : Bool) (text : String) (s : σ) :
    exchange device strict (some text) s = exchangeNames device strict (policyNames text) s := by
  simp only [exchange, collect, collectNames_recorded, List.nil_append]

theorem exchange_of_names_error {device : Device σ} {strict : Bool} {s s' : σ}
    {failure : FetchFailure} (hask : device.ask namesCommand s = (.error failure, s')) :
    exchange device strict none s = [(namesCommand, .error failure)] := by
  rw [exchange, collect_of_names_error (ask_recorded hask [])]
  rfl

theorem exchange_of_names_ok {device : Device σ} {strict : Bool} {s s' : σ} {text : String}
    (hask : device.ask namesCommand s = (.ok text, s')) :
    exchange device strict none s
      = (namesCommand, .ok text) :: exchangeNames device strict (policyNames text) s' := by
  rw [exchange, collect_of_names_ok (ask_recorded hask []), collectNames_recorded]
  rfl

theorem answers_some (device : Device σ) (strict : Bool) (text : String) (s : σ) :
    answers device strict (some text) s
      = (exchangeNames device strict (policyNames text) s).map Prod.snd := by
  rw [answers, exchange_some]

theorem answers_none {device : Device σ} {strict : Bool} {s s' : σ}
    {answer : Except FetchFailure String} (hask : device.ask namesCommand s = (answer, s')) :
    answers device strict none s = answer :: match answer with
      | .error _ => []
      | .ok text => (exchangeNames device strict (policyNames text) s').map Prod.snd := by
  rw [answers]
  cases answer with
  | error failure =>
    rw [exchange_of_names_error hask]
    rfl
  | ok text =>
    rw [exchange_of_names_ok hask]
    rfl

theorem collect_congr {device : Device σ} {other : Device τ} {strict : Bool}
    {given : Option String} {s : σ} {s' : τ}
    (h : answers device strict given s = answers other strict given s') :
    (collect device strict given s).1 = (collect other strict given s').1 := by
  cases given with
  | some text =>
    rw [answers_some, answers_some] at h
    exact collectNames_congr h
  | none =>
    rcases hask : device.ask namesCommand s with ⟨failure | text, t⟩ <;>
      rcases hask' : other.ask namesCommand s' with ⟨failure' | text', t'⟩ <;>
      simp only [answers_none hask, answers_none hask', List.cons.injEq, Except.error.injEq,
        Except.ok.injEq, reduceCtorEq, false_and, and_true] at h
    · rw [collect_of_names_error hask, collect_of_names_error hask', h]
    · obtain ⟨rfl, hrest⟩ := h
      rw [collect_of_names_ok hask, collect_of_names_ok hask']
      exact collectNames_congr hrest

theorem gather_eq (device : Device σ) (strict : Bool) (given : Option String) (s : σ) :
    gather device strict given s
      = ((collect device strict given s).1.bind factsOf, (collect device strict given s).2) := by
  rw [gather]
  rcases collect device strict given s with ⟨_ | _, _⟩ <;> rfl

theorem gather_congr {device : Device σ} {other : Device τ} {strict : Bool}
    {given : Option String} {s : σ} {s' : τ}
    (h : answers device strict given s = answers other strict given s') :
    (gather device strict given s).1 = (gather other strict given s').1 := by
  rw [gather_eq, gather_eq, collect_congr h]

end

end RoutePolicy
