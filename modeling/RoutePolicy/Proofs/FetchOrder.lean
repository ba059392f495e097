import RoutePolicy.Proofs.Gathering

/-!
# The order of fetching

Policies are fetched and read one after the other, and the first that cannot be fetched or read ends
the run.  Here the order of the commands is said without the run: by what passes between it and the
device, which may change with every command.

* `Device.Converses`      commands and answers in a row, with the states of the device;
* `FetchesInOrder`        what passes for a list of names: policies that are read, up to the end of
                          the list or to one that fails;
* `CollectsInOrder`       the same with the listing before it, unless that is given;
* `eq_of_fetchesInOrder`  only the run of the names is both;
* `collect_inOrder`       the same for the whole run.
-/

namespace RoutePolicy

/-! ## Conversations -/

section
variable {σ : Type}

/-- The device, asked these commands in this order, gives these answers; it starts in one state and
ends in the other. -/
inductive Device.Converses (device : Device σ) :
    σ → List (String × Except FetchFailure String) → σ → Prop where
  /-- nothing is asked -/
  | nil {s : σ} : Converses device s [] s
  /-- a command, and further ones in the state behind it -/
  | cons {s mid s' : σ} {command : String} {answer : Except FetchFailure String}
      {rest : List (String × Except FetchFailure String)} :
      device.ask command s = (answer, mid) → Converses device mid rest s' →
      Converses device s ((command, answer) :: rest) s'

theorem Device.converses_cons_iff {device : Device σ} {s s' : σ} {command : String}
    {answer : Except FetchFailure String} {rest : List (String × Except FetchFailure String)} :
    device.Converses s ((command, answer) :: rest) s' ↔
      (device.ask command s).1 = answer ∧ device.Converses (device.ask command s).2 rest s' := by
  constructor
  · rintro (_ | ⟨hask, hrest⟩)
    rw [hask]
    exact ⟨rfl, hrest⟩
  · rintro ⟨rfl, hrest⟩
    exact .cons rfl hrest

theorem Device.converses_single_iff {device : Device σ} {s s' : σ} {command : String}
    {answer : Except FetchFailure String} :
    device.Converses s [(command, answer)] s' ↔ device.ask command s = (answer, s') := by
  rw [converses_cons_iff]
  constructor
  · rintro ⟨rfl, hnil⟩
    cases hnil
    rfl
  · intro hask
    rw [hask]
    exact ⟨rfl, .nil⟩

end

/-! ## Policies in order -/

/-- A policy that was read from the answer to its command. -/
structure PolicyReading (strict : Bool) where
  name : String
  text : String
  made : Trace
  made_eq : trace strict name text = .ok made

/-- The command for the policy, and its answer. -/
def PolicyReading.asked {strict : Bool} (r : PolicyReading strict) :
    String × Except FetchFailure String :=
  (policyCommand r.name, .ok r.text)

/-- What passes when these names are fetched and read in order, and what comes of it. -/
inductive FetchesInOrder (strict : Bool) (names : List String) :
    List (String × Except FetchFailure String) → Except Error (List Trace) → Prop where
  /-- all policies are read -/
  | complete (read : List (PolicyReading strict)) :
      names = read.map PolicyReading.name →
      FetchesInOrder strict names (read.map PolicyReading.asked) (.ok (read.map PolicyReading.made))
  /-- all policies up to one that gets no answer -/
  | unanswered (read : List (PolicyReading strict)) {name : String} {rest : List String}
      {failure : FetchFailure} :
      names = read.map PolicyReading.name ++ name :: rest →
      FetchesInOrder strict names
        (read.map PolicyReading.asked ++ [(policyCommand name, .error failure)])
        (.error (.fetch (policyCommand name) failure))
  /-- all policies up to one whose body is refused -/
  | refused (read : List (PolicyReading strict)) {name : String} {rest : List String}
      {text : String} {stray : StrayBranch} :
      names = read.map PolicyReading.name ++ name :: rest →
      segment strict (bodyLines name text) = .error stray →
      FetchesInOrder strict names
        (read.map PolicyReading.asked ++ [(policyCommand name, .ok text)])
        (.error (.strayBranch stray))

/-- What passes when the policies of a listing are collected, and what comes of it. -/
inductive CollectsInOrder (strict : Bool) : Option String →
    List (String × Except FetchFailure String) → Except Error (List Trace) → Prop where
  /-- the listing is given, and not asked for -/
  | given {text : String} {asked : List (String × Except FetchFailure String)}
      {result : Except Error (List Trace)} :
      FetchesInOrder strict (policyNames text) asked result →
      CollectsInOrder strict (some text) asked result
  /-- the listing is asked for, and comes -/
  | listed {text : String} {asked : List (String × Except FetchFailure String)}
      {result : Except Error (List Trace)} :
      FetchesInOrder strict (policyNames text) asked result →
      CollectsInOrder strict none ((namesCommand, .ok text) :: asked) result
  /-- the listing is asked for, and does not come -/
  | unlisted {failure : FetchFailure} :
      CollectsInOrder strict none [(namesCommand, .error failure)]
        (.error (.fetch namesCommand failure))

/-! ## One policy more in front -/

section
variable {strict : Bool} {name : String} {names : List String}
  {asked : List (String × Except FetchFailure String)} {result : Except Error (List Trace)}

theorem trace_eq_error_of_segment {text : String} {stray : StrayBranch}
    (h : segment strict (bodyLines name text) = .error stray) :
    trace strict name text = .error (.strayBranch stray) := by
  simp only [trace, h]

theorem segment_of_trace_error {text : String} {e : Error}
    (h : trace strict name text = .error e) :
    ∃ stray, segment strict (bodyLines name text) = .error stray ∧ e = .strayBranch stray := by
  simp only [trace] at h
  split at h
  · rename_i stray hstray
    exact ⟨stray, hstray, (Except.error.inj h).symm⟩
  · cases h

theorem fetchesInOrder_nil_iff :
    FetchesInOrder strict [] asked result ↔ asked = [] ∧ result = .ok [] := by
  constructor
  · intro h
    cases h with
    | complete read hnames =>
      rw [List.map_eq_nil_iff.mp hnames.symm]
      exact ⟨rfl, rfl⟩
    | unanswered read hnames => exact absurd hnames.symm (by simp)
    | refused read hnames _ => exact absurd hnames.symm (by simp)
  · rintro ⟨rfl, rfl⟩
    exact .complete [] rfl

/-- A policy that is read is followed by the others. -/
theorem FetchesInOrder.cons {text : String} {t : Trace} (htrace : trace strict name text = .ok t)
    (h : FetchesInOrder strict names asked result) :
    FetchesInOrder strict (name :: names) ((policyCommand name, .ok text) :: asked)
      (result.map (t :: ·)) := by
  let first : PolicyReading strict := ⟨name, text, t, htrace⟩
  cases h with
  | complete read hnames =>
    exact .complete (first :: read) (by rw [hnames]; rfl)
  | unanswered read hnames =>
    exact .unanswered (first :: read) (by rw [hnames]; rfl)
  | refused read hnames hstray =>
    exact .refused (first :: read) (by rw [hnames]; rfl) hstray

/-- The first policy gets no answer, or its body is refused, or it is followed by the others. -/
theorem FetchesInOrder.cons_cases (h : FetchesInOrder strict (name :: names) asked result) :
    (∃ failure, asked = [(policyCommand name, .error failure)] ∧
      result = .error (.fetch (policyCommand name) failure)) ∨
    (∃ text e, asked = [(policyCommand name, .ok text)] ∧ trace strict name text = .error e ∧
      result = .error e) ∨
    (∃ text t rest made, asked = (policyCommand name, .ok text) :: rest ∧
      trace strict name text = .ok t ∧ FetchesInOrder strict names rest made ∧
      result = made.map (t :: ·)) := by
  cases h with
  | complete read hnames =>
    cases read with
    | nil => cases hnames
    | cons first read =>
      obtain ⟨rfl, rfl⟩ := List.cons.inj hnames
      exact .inr (.inr ⟨first.text, first.made, _, _, rfl, first.made_eq, .complete _ rfl, rfl⟩)
  | @unanswered read _ _ failure hnames =>
    cases read with
    | nil =>
      obtain ⟨rfl, rfl⟩ := List.cons.inj hnames
      exact .inl ⟨failure, rfl, rfl⟩
    | cons first read =>
      obtain ⟨rfl, rfl⟩ := List.cons.inj hnames
      exact .inr (.inr ⟨first.text, first.made, _, _, rfl, first.made_eq, .unanswered _ rfl, rfl⟩)
  | @refused read _ _ text _ hnames hstray =>
    cases read with
    | nil =>
      obtain ⟨rfl, rfl⟩ := List.cons.inj hnames
      exact .inr (.inl ⟨text, _, rfl, trace_eq_error_of_segment hstray, rfl⟩)
    | cons first read =>
      obtain ⟨rfl, rfl⟩ := List.cons.inj hnames
      exact .inr (.inr ⟨first.text, first.made, _, _, rfl, first.made_eq, .refused _ rfl hstray, rfl⟩)

end

/-! ## The run -/

section
variable {σ : Type}

/-- What passes in a run passes in order. -/
theorem collectNames_fetchesInOrder (device : Device σ) (strict : Bool) (names : List String)
    (s : σ) :
    device.Converses s (exchangeNames device strict names s)
        (collectNames device strict names s).2 ∧
      FetchesInOrder strict names (exchangeNames device strict names s)
        (collectNames device strict names s).1 := by
  induction names generalizing s with
  | nil => exact ⟨.nil, fetchesInOrder_nil_iff.mpr ⟨rfl, rfl⟩⟩
  | cons name names ih =>
    rcases hask : device.ask (policyCommand name) s with ⟨failure | text, mid⟩
    · rw [collectNames_of_fetch_error hask]
      simp only [exchangeNames, hask]
      exact ⟨.cons hask .nil, .unanswered [] rfl⟩
    · cases htrace : trace strict name text with
      | error e =>
        obtain ⟨stray, hstray, rfl⟩ := segment_of_trace_error htrace
        rw [collectNames_of_trace_error hask htrace]
        simp only [exchangeNames, hask, htrace]
        exact ⟨.cons hask .nil, .refused [] rfl hstray⟩
      | ok t =>
        obtain ⟨hrest, horder⟩ := ih mid
        rw [collectNames_of_trace_ok hask htrace]
        simp only [exchangeNames, hask, htrace]
        exact ⟨.cons hask hrest, horder.cons htrace⟩

/-- Only the run has what passes in order, with the answers of the device. -/
theorem eq_of_fetchesInOrder {device : Device σ} {strict : Bool} {names : List String} {s s' : σ}
    {asked : List (String × Except FetchFailure String)} {result : Except Error (List Trace)}
    (hdevice : device.Converses s asked s') (h : FetchesInOrder strict names asked result) :
    collectNames device strict names s = (result, s') ∧
      exchangeNames device strict names s = asked := by
  induction names generalizing s asked result with
  | nil =>
    obtain ⟨rfl, rfl⟩ := fetchesInOrder_nil_iff.mp h
    cases hdevice
    exact ⟨rfl, rfl⟩
  | cons name names ih =>
    obtain ⟨failure, rfl, rfl⟩ | ⟨text, e, rfl, htrace, rfl⟩ |
      ⟨text, t, rest, made, rfl, htrace, hrest, rfl⟩ := h.cons_cases
    · have hask := Device.converses_single_iff.mp hdevice
      exact ⟨collectNames_of_fetch_error hask, by simp only [exchangeNames, hask]⟩
    · have hask := Device.converses_single_iff.mp hdevice
      exact ⟨collectNames_of_trace_error hask htrace, by simp only [exchangeNames, hask, htrace]⟩
    · cases hdevice with
      | cons hask hdevice =>
        obtain ⟨hrun, hexchange⟩ := ih hdevice hrest
        rw [collectNames_of_trace_ok hask htrace, hrun]
        refine ⟨rfl, ?_⟩
        simp only [exchangeNames, hask, htrace, hexchange]

/-! ## With the listing -/

theorem collect_collectsInOrder (device : Device σ) (strict : Bool) (given : Option String)
    (s : σ) :
    device.Converses s (exchange device strict given s) (collect device strict given s).2 ∧
      CollectsInOrder strict given (exchange device strict given s)
        (collect device strict given s).1 := by
  cases given with
  | some text =>
    obtain ⟨hdevice, horder⟩ := collectNames_fetchesInOrder device strict (policyNames text) s
    rw [exchange_some]
    exact ⟨hdevice, .given horder⟩
  | none =>
    rcases hask : device.ask namesCommand s with ⟨failure | text, mid⟩
    · rw [exchange_of_names_error hask, collect_of_names_error hask]
      exact ⟨.cons hask .nil, .unlisted⟩
    · obtain ⟨hdevice, horder⟩ := collectNames_fetchesInOrder device strict (policyNames text) mid
      rw [exchange_of_names_ok hask, collect_of_names_ok hask]
      exact ⟨.cons hask hdevice, .listed horder⟩

theorem eq_of_collectsInOrder {device : Device σ} {strict : Bool} {given : Option String}
    {s s' : σ}
    {asked : List (String × Except FetchFailure String)} {result : Except Error (List Trace)}
    (hdevice : device.Converses s asked s') (h : CollectsInOrder strict given asked result) :
    collect device strict given s = (result, s') ∧ exchange device strict given s = asked := by
  cases h with
  | given h =>
    rw [exchange_some]
    exact eq_of_fetchesInOrder hdevice h
  | listed h =>
    cases hdevice with
    | cons hask hdevice =>
      obtain ⟨hrun, hexchange⟩ := eq_of_fetchesInOrder hdevice h
      rw [exchange_of_names_ok hask, collect_of_names_ok hask, hexchange]
      exact ⟨hrun, rfl⟩
  | unlisted =>
    have hask := Device.converses_single_iff.mp hdevice
    exact ⟨collect_of_names_error hask, exchange_of_names_error hask⟩

end

/-- **Fetching is in order and stops at the first failure.**  Whatever the device, a run has this
result and this exchange with the device just if the answers in the exchange are those of the
device, asked these commands one after the other, and the commands are, in order: the one for the
listing, unless that is given, and then one for each name of the listing, repeated names included,
up to the end or to the first policy that gets no answer or whose body is refused, and none behind
it.  The result is the failure of that policy; or, if there is none, the policies, each read from
the answer to its own command. -/
theorem collect_inOrder {σ : Type} (device : Device σ) (strict : Bool) (given : Option String)
    (s s' : σ) (asked : List (String × Except FetchFailure String))
    (result : Except Error (List Trace)) :
    (collect device strict given s = (result, s') ∧ exchange device strict given s = asked) ↔
      device.Converses s asked s' ∧ CollectsInOrder strict given asked result := by
  constructor
  · rintro ⟨hrun, rfl⟩
    have h := collect_collectsInOrder device strict given s
    rwa [hrun] at h
  · rintro ⟨hdevice, h⟩
    exact eq_of_collectsInOrder hdevice h

/-- A device that answers the first three commands and then no more. -/
def Device.tiring : Device Nat where
  ask _ count := (if count < 3 then .ok "pass" else .error (.reported "busy"), count + 1)

/-- The name `A` is asked for twice, and nothing behind the first failure. -/
example : (exchange Device.tiring true
      (some "route-policy A\nroute-policy B\nroute-policy A\nroute-policy C\nroute-policy D") 0).map
      (fun entry => (entry.1, entry.2.toOption.isSome))
    = [(policyCommand "A", true), (policyCommand "B", true), (policyCommand "A", true),
      (policyCommand "C", false)] := by
  decide +kernel

end RoutePolicy
