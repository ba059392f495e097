import RoutePolicy.Proofs.Gathering
import RoutePolicy.Proofs.PolicyBlock

/-!
# A configuration read through its own answers

A device that holds a configuration lists its policies and shows each of them, so reading the
configuration asks the device for names and sends them back.  Here it is shown that the names come
through: every name in the listing is a header of the text, every header is in the listing, and the
block of each is found.

* `policyNames_listing`        the listing has the headers of the text, in order;
* `collectNames_runningConfig` the policies are those that can be read from the text itself;
* `configTraces_eq`            so nothing can go wrong but a stray branch;
* `factNames_of_factsOf`       the facts carry the names of the policies.
-/

namespace RoutePolicy

/-! ## The listing -/

theorem Text.occursIn_of_prefix {needle cs : List Char} (h : needle <+: cs) :
    occursIn needle cs = true := by
  cases cs with
  | nil =>
    rw [List.prefix_nil.mp h]
    rfl
  | cons c cs =>
    rw [occursIn, List.isPrefixOf_iff_prefix.mpr h]
    rfl

theorem filterMap_headerName?_recut (lines : List String) :
    (Line.recut lines).filterMap headerName? = lines.filterMap headerName? := by
  fun_induction Line.recut lines with
  | case1 => rfl
  | case2 => rw [List.filterMap_cons_none headerName?_empty]
  | case3 => rfl
  | case4 line next rest ih =>
    rw [List.filterMap_cons, headerName?_dropReturn, ih, ← List.filterMap_cons]

theorem policyNames_listing (config : String) : policyNames (listing config) = policyNames config := by
  have hlines : ∀ line ∈ (Line.ofText config).filter fun line =>
      Text.occursIn "route-policy".toList line.toList, '\n' ∉ line.toList := fun line hline =>
    Line.newline_not_mem_of_mem_ofText (List.mem_filter.mp hline).1
  have hkept : (fun line => if Text.occursIn "route-policy".toList line.toList
      then headerName? line else none) = headerName? := by
    funext line
    cases hheader : headerName? line with
    | none => exact ite_self none
    | some name => exact if_pos (Text.occursIn_of_prefix (keyword_of_headerName? hheader).2)
  rw [policyNames, listing, Line.ofText_join hlines, filterMap_headerName?_recut,
    List.filterMap_filter, hkept, policyNames]

/-! ## The policies -/

theorem opened_of_mem_policyNames {config name : String} (h : name ∈ policyNames config) :
    ∃ line ∈ Line.ofText config, headerName? line = some name := by
  obtain ⟨line, hmem, hline⟩ := List.mem_filterMap.mp h
  exact ⟨line, hmem, hline⟩

theorem fetch_policyCommand {config name : String}
    (h : ∃ line ∈ Line.ofText config, headerName? line = some name) :
    fetch (.runningConfig config) (policyCommand name) ()
      = (.ok (Line.join (policyBlock name config)), ()) := by
  rw [fetch, ask_policyCommand h]

theorem collectNames_runningConfig {config : String} (strict : Bool) {names : List String}
    (h : ∀ name ∈ names, ∃ line ∈ Line.ofText config, headerName? line = some name) :
    collectNames (.runningConfig config) strict names ()
      = (names.mapM fun name => trace strict name config, ()) := by
  induction names with
  | nil => rfl
  | cons name names ih =>
    have hname := h name List.mem_cons_self
    have ih' := ih fun other hother => h other (List.mem_cons_of_mem _ hother)
    rw [collectNames, fetch_policyCommand hname, List.mapM_cons]
    simp only [trace_policyBlock hname, ih']
    cases trace strict name config with
    | error e => rfl
    | ok t => cases names.mapM fun name => trace strict name config <;> rfl

/-- Every policy of a configuration is read as if from the configuration itself. -/
theorem configTraces_eq (strict : Bool) (config : String) :
    configTraces strict config = (policyNames config).mapM fun name => trace strict name config := by
  have hnames : fetch (.runningConfig config) namesCommand () = (.ok (listing config), ()) := rfl
  rw [configTraces, collect]
  simp only [hnames]
  rw [policyNames_listing,
    collectNames_runningConfig strict fun _ hname => opened_of_mem_policyNames hname]

theorem configFacts_eq (strict : Bool) (config : String) :
    configFacts strict config = (configTraces strict config).bind factsOf := by
  rw [configFacts, gather_eq, configTraces]

theorem configDetails_eq (strict : Bool) (config : String) :
    configDetails strict config
      = (configTraces strict config).bind fun traces => (factsOf traces).map (traces, ·) := by
  rw [configDetails]
  cases configTraces strict config with
  | error e => rfl
  | ok traces =>
    cases hfacts : factsOf traces with
    | error e => simp only [Except.bind, hfacts, Except.map]
    | ok facts => simp only [Except.bind, hfacts, Except.map]

theorem configDetails_ok {strict : Bool} {config : String} {traces : List Trace}
    {facts : List Value} (h : configDetails strict config = .ok (traces, facts)) :
    configTraces strict config = .ok traces ∧ factsOf traces = .ok facts := by
  rw [configDetails_eq] at h
  cases htraces : configTraces strict config with
  | error e =>
    rw [htraces] at h
    cases h
  | ok made =>
    rw [htraces] at h
    cases hfacts : factsOf made with
    | error e =>
      simp only [Except.bind, hfacts] at h
      cases h
    | ok found =>
      simp only [Except.bind, hfacts] at h
      obtain ⟨rfl, rfl⟩ := Prod.mk.inj (Except.ok.inj h)
      exact ⟨rfl, hfacts⟩

theorem configFacts_of_details {strict : Bool} {config : String} {traces : List Trace}
    {facts : List Value} (h : configDetails strict config = .ok (traces, facts)) :
    configFacts strict config = .ok facts := by
  obtain ⟨htraces, hfacts⟩ := configDetails_ok h
  rw [configFacts_eq, htraces]
  exact hfacts

/-! ## What can go wrong -/

theorem mapM_error {α β ε : Type} {f : α → Except ε β} {as : List α} {e : ε}
    (h : as.mapM f = .error e) : ∃ a ∈ as, f a = .error e := by
  induction as with
  | nil => cases h
  | cons a as ih =>
    rw [List.mapM_cons] at h
    cases ha : f a with
    | error e' =>
      rw [ha] at h
      obtain rfl := Except.error.inj h
      exact ⟨a, List.mem_cons_self, ha⟩
    | ok b =>
      rw [ha] at h
      cases has : as.mapM f with
      | error e' =>
        have hrest : as.mapM f = .error e := by
          rw [has] at h ⊢
          exact h
        obtain ⟨a', hmem, ha'⟩ := ih hrest
        exact ⟨a', List.mem_cons_of_mem _ hmem, ha'⟩
      | ok bs =>
        rw [has] at h
        cases h

theorem configTraces_error {strict : Bool} {config : String} {e : Error}
    (h : configTraces strict config = .error e) : ∃ stray, e = .strayBranch stray := by
  rw [configTraces_eq] at h
  obtain ⟨name, _, hname⟩ := mapM_error h
  exact trace_error hname

/-! ## Names of facts -/

theorem mapM_cons_ok {α β ε : Type} {f : α → Except ε β} {a : α} {as : List α} {bs : List β}
    (h : (a :: as).mapM f = .ok bs) :
    ∃ b rest, f a = .ok b ∧ as.mapM f = .ok rest ∧ bs = b :: rest := by
  rw [List.mapM_cons] at h
  cases ha : f a with
  | error e =>
    rw [ha] at h
    cases h
  | ok b =>
    rw [ha] at h
    cases has : as.mapM f with
    | error e =>
      rw [has] at h
      cases h
    | ok rest =>
      rw [has] at h
      exact ⟨b, rest, rfl, rfl, (Except.ok.inj h).symm⟩

theorem traces_ok {strict : Bool} {config : String} {names : List String} {traces : List Trace}
    (h : (names.mapM fun name => trace strict name config) = .ok traces) :
    traces.map Trace.name = names ∧ ∀ t ∈ traces, t.document = document t.name t.scope := by
  induction names generalizing traces with
  | nil =>
    obtain rfl := Except.ok.inj h
    exact ⟨rfl, fun t ht => absurd ht (by simp)⟩
  | cons name names ih =>
    obtain ⟨t, ts, ht, hts, rfl⟩ := mapM_cons_ok h
    obtain ⟨hname, hdocument⟩ := trace_ok ht
    obtain ⟨hnames, hdocuments⟩ := ih hts
    refine ⟨by rw [List.map_cons, hname, hnames], fun other hother => ?_⟩
    rcases List.mem_cons.mp hother with rfl | hother
    · exact hdocument
    · exact hdocuments other hother

/-- A name that is not empty passes the check and is not pruned. -/
theorem name_of_validate {name : String} (hname : name ≠ "") {rest : List (String × Value)}
    {path : Path} {w : Value}
    (h : Schema.routeMap.validate path (.dict (("name", .str name) :: rest)) = .ok w) :
    ∃ fact, w.prune? = some fact ∧ fact.get? "name" = some (.str name) := by
  obtain ⟨fields, es, hfields, hes, rfl⟩ := Schema.validate_dict_ok h
  obtain ⟨schema, v, more, hschema, hv, _, rfl⟩ := Schema.validateEntries_cons_ok hes
  -- the schema of a policy says that its name is a text
  obtain rfl := Option.some.inj hfields
  obtain rfl := Option.some.inj hschema
  obtain rfl := Except.ok.inj hv
  have hprune : Value.pruneEntries (("name", .str name) :: more)
      = ("name", .str name) :: Value.pruneEntries more := by
    rw [Value.pruneEntries_cons, Value.prune?, if_neg hname]
    rfl
  refine ⟨_, Value.prune?_dict (by rw [hprune]; simp), ?_⟩
  rw [hprune]
  rfl

theorem factNames_of_factsOf {traces : List Trace} {facts : List Value}
    (hnames : ∀ t ∈ traces, t.name ≠ "")
    (hdocuments : ∀ t ∈ traces, t.document = document t.name t.scope)
    (h : factsOf traces = .ok facts) :
    facts.map (Value.get? "name") = traces.map fun t => some (.str t.name) := by
  rw [factsOf, finish_eq] at h
  split at h
  · cases h
  · rename_i values hvalues
    obtain rfl := Except.ok.inj h
    clear h
    -- the index of a policy only shows in faults
    generalize 0 = i at hvalues
    induction traces generalizing i values with
    | nil =>
      obtain rfl := Except.ok.inj hvalues
      rfl
    | cons t traces ih =>
      obtain ⟨w, rest, hw, hrest, rfl⟩ := Schema.validateItems_cons_ok hvalues
      rw [hdocuments t List.mem_cons_self, document] at hw
      obtain ⟨fact, hfact, hname⟩ := name_of_validate (hnames t List.mem_cons_self) hw
      have ih' := ih (fun t' ht' => hnames t' (List.mem_cons_of_mem _ ht'))
        (fun t' ht' => hdocuments t' (List.mem_cons_of_mem _ ht')) rest (i + 1) hrest
      rw [Value.pruneItems_cons, hfact, List.map_cons, ← ih', ← hname]
      rfl

theorem names_of_configTraces {strict : Bool} {config : String} {traces : List Trace}
    {facts : List Value} (htraces : configTraces strict config = .ok traces)
    (hfacts : factsOf traces = .ok facts) :
    traces.map Trace.name = policyNames config ∧
      facts.map (Value.get? "name") = (policyNames config).map fun name => some (.str name) := by
  rw [configTraces_eq] at htraces
  obtain ⟨hnames, hdocuments⟩ := traces_ok htraces
  have hfilled : ∀ t ∈ traces, t.name ≠ "" := by
    intro t ht
    have hmem : t.name ∈ policyNames config := hnames ▸ List.mem_map_of_mem ht
    obtain ⟨line, _, hline⟩ := List.mem_filterMap.mp hmem
    intro hempty
    exact (accepts_of_headerName? hline).1 (by rw [hempty]; rfl)
  refine ⟨hnames, ?_⟩
  rw [factNames_of_factsOf hfilled hdocuments hfacts, ← hnames, List.map_map]
  rfl

/-- **A configuration is consistent with itself.**  Whatever the text, its policies are those that
its headers name, each read from the text itself, and no command fails; and the facts, when there
are some, have the names of the headers, in text order and with repetitions. -/
theorem config_selfConsistent (strict : Bool) (config : String) :
    configTraces strict config = ((policyNames config).mapM fun name => trace strict name config) ∧
    (∀ command failure, configFacts strict config ≠ .error (.fetch command failure)) ∧
    (∀ command failure, configDetails strict config ≠ .error (.fetch command failure)) ∧
    (∀ facts, configFacts strict config = .ok facts →
      facts.map (Value.get? "name") = (policyNames config).map fun name => some (.str name)) ∧
    (∀ traces facts, configDetails strict config = .ok (traces, facts) →
      traces.map Trace.name = policyNames config ∧
      facts.map (Value.get? "name") = (policyNames config).map fun name => some (.str name)) := by
  refine ⟨configTraces_eq strict config, ?_⟩
  rw [configFacts_eq, configDetails_eq]
  cases htraces : configTraces strict config with
  | error e =>
    obtain ⟨stray, rfl⟩ := configTraces_error htraces
    exact ⟨nofun, nofun, nofun, nofun⟩
  | ok traces =>
    cases hfacts : factsOf traces with
    | error e =>
      obtain ⟨fault, rfl⟩ := factsOf_error hfacts
      simp only [Except.bind, hfacts]
      exact ⟨nofun, nofun, nofun, nofun⟩
    | ok facts =>
      have hnames := names_of_configTraces htraces hfacts
      simp only [Except.bind, hfacts]
      refine ⟨nofun, nofun, ?_, ?_⟩
      · intro facts' h
        rw [← Except.ok.inj h]
        exact hnames.2
      · intro traces' facts' h
        obtain ⟨rfl, rfl⟩ := Prod.mk.inj (Except.ok.inj h)
        exact hnames

/-- A name that is opened twice, a parameter list, doubled carriage returns, an attachment, and a
last policy without an end. -/
def repeatedName : String :=
  "route-policy A\r\r\n pass\r\nend-policy\n! route-policy C\n route-policy A in\n"
    ++ "route-policy B($x)\n drop\nroute-policy A\n set tag 7"

theorem config_repeatedName :
    policyNames repeatedName = ["A", "B", "A"] ∧
    ∃ traces facts, configFacts true repeatedName = .ok facts ∧
      configDetails true repeatedName = .ok (traces, facts) ∧
      traces.map Trace.name = policyNames repeatedName ∧
      facts.map (Value.get? "name") = (policyNames repeatedName).map fun name => some (.str name) := by
  have hnames : policyNames repeatedName = ["A", "B", "A"] := by decide +kernel
  have hsome : (configDetails true repeatedName).toOption.isSome = true := by decide +kernel
  obtain ⟨⟨traces, facts⟩, hdetails⟩ := Option.isSome_iff_exists.mp hsome
  have hfacts := configFacts_of_details (ok_of_toOption hdetails)
  have hconsistent := config_selfConsistent true repeatedName
  exact ⟨hnames, traces, facts, hfacts, ok_of_toOption hdetails,
    (hconsistent.2.2.2.2 traces facts (ok_of_toOption hdetails)).1,
    hconsistent.2.2.2.1 facts hfacts⟩

end RoutePolicy
