import RoutePolicy.Proofs.RunningConfig
import RoutePolicy.Proofs.StoreRun

/-!
# Facts in line with policies

Documents are checked and pruned as one list, and pruning drops what is empty.  A policy is never
dropped, because its name is never empty: every listed name gives one fact, in the order of the
listing, and the fact is the one that its document would give alone.  The report relies on this when
it pairs policies with facts.

* `collectNames_ok`    a successful run has one policy for each name;
* `finish_document`    a policy with a name gives one fact, which has that name;
* `factsOf_aligned`    the facts of policies, one by one;
* `gather_aligned`     the facts of a listing, for any device.
-/

namespace RoutePolicy

/-! ## One policy for each name -/

section
variable {σ : Type} {device : Device σ} {strict : Bool}

theorem collectNames_ok {names : List String} {s : σ} {traces : List Trace}
    (h : (collectNames device strict names s).1 = .ok traces) :
    traces.map Trace.name = names ∧ ∀ t ∈ traces, t.document = document t.name t.scope := by
  induction names generalizing s traces with
  | nil =>
    obtain rfl := Except.ok.inj h
    exact ⟨rfl, nofun⟩
  | cons name names ih =>
    rcases hask : device.ask (policyCommand name) s with ⟨failure | text, s'⟩
    · rw [collectNames_of_fetch_error hask] at h
      cases h
    · cases htrace : trace strict name text with
      | error e =>
        rw [collectNames_of_trace_error hask htrace] at h
        cases h
      | ok t =>
        rw [collectNames_of_trace_ok hask htrace] at h
        cases hrest : (collectNames device strict names s').1 with
        | error e =>
          rw [hrest] at h
          cases h
        | ok rest =>
          rw [hrest] at h
          obtain rfl := Except.ok.inj h
          obtain ⟨hname, hdocument⟩ := trace_ok htrace
          obtain ⟨hnames, hdocuments⟩ := ih hrest
          exact ⟨by rw [List.map_cons, hname, hnames],
            List.forall_mem_cons.mpr ⟨hdocument, hdocuments⟩⟩

/-- The text that a run reads the names from: the one that is given, or the answer of the device. -/
def listed (device : Device σ) (given : Option String) (s : σ) : Except FetchFailure String :=
  match given with
  | some text => .ok text
  | none => (device.ask namesCommand s).1

theorem collect_ok {given : Option String} {s : σ} {traces : List Trace}
    (h : (collect device strict given s).1 = .ok traces) :
    ∃ text, listed device given s = .ok text ∧ traces.map Trace.name = policyNames text ∧
      ∀ t ∈ traces, t.document = document t.name t.scope := by
  cases given with
  | some text => exact ⟨text, rfl, collectNames_ok h⟩
  | none =>
    rcases hask : device.ask namesCommand s with ⟨failure | text, s'⟩
    · rw [collect_of_names_error hask] at h
      cases h
    · rw [collect_of_names_ok hask] at h
      exact ⟨text, congrArg Prod.fst hask, collectNames_ok h⟩

end

theorem ne_empty_of_mem_policyNames {text name : String} (h : name ∈ policyNames text) :
    name ≠ "" := by
  obtain ⟨line, _, hline⟩ := List.mem_filterMap.mp h
  intro hempty
  exact (accepts_of_headerName? hline).1 (by rw [hempty]; rfl)

/-! ## One fact for each policy -/

theorem finish_document {name : String} (hname : name ≠ "") {scope : Scope} {facts : List Value}
    (h : finish [document name scope] = .ok facts) :
    ∃ entries, facts = [.dict entries] ∧ Entries.get? "name" entries = some (.str name) := by
  obtain ⟨values, hvalues, rfl⟩ := finish_eq_ok_iff.mp h
  obtain ⟨w, rest, hw, hrest, rfl⟩ := Schema.validateItems_cons_ok hvalues
  rw [List.map_nil, Schema.validateItems] at hrest
  obtain ⟨fact, hfact, hget⟩ := name_of_validate hname hw
  obtain ⟨entries, hentries, hentry⟩ := Option.bind_eq_some_iff.mp hget
  have hdict : fact = .dict entries := by
    cases fact with
    | dict es => rw [Option.some.inj hentries]
    | _ => cases hentries
  refine ⟨entries, ?_, hentry⟩
  rw [← Except.ok.inj hrest, Value.pruneItems_cons, hfact, hdict, Value.pruneItems]
  rfl

/-- Names, policies and facts that belong together place by place: the fact is a mapping with the
name of the policy, and is what the document of the policy gives alone. -/
structure Aligned (names : List String) (traces : List Trace) (facts : List Value) : Prop where
  count : facts.length = names.length
  traced : traces.length = names.length
  fact : ∀ (i : Nat) (name : String), names[i]? = some name →
    ∃ (t : Trace) (entries : List (String × Value)), traces[i]? = some t ∧ t.name = name ∧
      facts[i]? = some (.dict entries) ∧ Entries.get? "name" entries = some (.str name) ∧
      finish [t.document] = .ok [.dict entries]

theorem Aligned.cons {names : List String} {traces : List Trace} {facts : List Value}
    (h : Aligned names traces facts) {t : Trace} {entries : List (String × Value)}
    (hname : Entries.get? "name" entries = some (.str t.name))
    (hfinish : finish [t.document] = .ok [.dict entries]) :
    Aligned (t.name :: names) (t :: traces) (.dict entries :: facts) where
  count := by rw [List.length_cons, List.length_cons, h.count]
  traced := by rw [List.length_cons, List.length_cons, h.traced]
  fact i name hi := by
    cases i with
    | zero =>
      obtain rfl := Option.some.inj hi
      exact ⟨t, entries, rfl, rfl, rfl, hname, hfinish⟩
    | succ i => exact h.fact i name hi

theorem factsOf_aligned {traces : List Trace} {facts : List Value}
    (hnames : ∀ t ∈ traces, t.name ≠ "")
    (hdocuments : ∀ t ∈ traces, t.document = document t.name t.scope)
    (h : factsOf traces = .ok facts) : Aligned (traces.map Trace.name) traces facts := by
  induction traces generalizing facts with
  | nil =>
    obtain rfl := Except.ok.inj h
    exact ⟨rfl, rfl, nofun⟩
  | cons t traces ih =>
    obtain ⟨hname, hnames⟩ := List.forall_mem_cons.mp hnames
    obtain ⟨hdocument, hdocuments⟩ := List.forall_mem_cons.mp hdocuments
    have hall : finish ([t.document] ++ traces.map Trace.document) = .ok facts := h
    obtain ⟨own, rest, hown, hrest, rfl⟩ := finish_append_ok.mp hall
    rw [hdocument] at hown
    obtain ⟨entries, rfl, hentry⟩ := finish_document hname hown
    rw [← hdocument] at hown
    exact (ih hnames hdocuments hrest).cons hentry hown

section
variable {σ : Type}

theorem aligned_of_collect {device : Device σ} {strict : Bool} {given : Option String} {s : σ}
    {traces : List Trace} {facts : List Value}
    (hcollect : (collect device strict given s).1 = .ok traces) (hfacts : factsOf traces = .ok facts) :
    ∃ text, listed device given s = .ok text ∧ Aligned (policyNames text) traces facts := by
  obtain ⟨text, htext, hnames, hdocuments⟩ := collect_ok hcollect
  refine ⟨text, htext, hnames ▸ factsOf_aligned ?_ hdocuments hfacts⟩
  intro t ht
  exact ne_empty_of_mem_policyNames (hnames ▸ List.mem_map_of_mem ht)

theorem aligned_of_gather {device : Device σ} {strict : Bool} {given : Option String} {s : σ}
    {facts : List Value} (h : (gather device strict given s).1 = .ok facts) :
    ∃ text traces, listed device given s = .ok text ∧
      (collect device strict given s).1 = .ok traces ∧ Aligned (policyNames text) traces facts := by
  rw [gather_eq] at h
  cases hcollect : (collect device strict given s).1 with
  | error e =>
    rw [hcollect] at h
    cases h
  | ok traces =>
    rw [hcollect] at h
    obtain ⟨text, htext, haligned⟩ := aligned_of_collect hcollect h
    exact ⟨text, traces, htext, rfl, haligned⟩

/-- **Facts are in line with policies.**  Whatever the device, when facts are gathered, put into a
store or reported, there is one for each name in the listing, in that order; each is a mapping with
that name, and what the document of the policy gives alone. -/
theorem gather_aligned (device : Device σ) (strict : Bool) (given : Option String) (s : σ) :
    (∀ facts, (gather device strict given s).1 = .ok facts →
      ∃ text traces, listed device given s = .ok text ∧
        (collect device strict given s).1 = .ok traces ∧
        Aligned (policyNames text) traces facts) ∧
    (∀ store : Store, (store.populate device strict given s).1.1 = .ok () →
      ∃ text traces facts, listed device given s = .ok text ∧
        (collect device strict given s).1 = .ok traces ∧
        (store.populate device strict given s).1.2.routeMaps? = some facts ∧
        Aligned (policyNames text) traces facts) ∧
    (∀ config traces facts, configDetails strict config = .ok (traces, facts) →
      configTraces strict config = .ok traces ∧
        Aligned (policyNames (listing config)) traces facts) := by
  refine ⟨fun facts => aligned_of_gather, fun store h => ?_, fun config traces facts h => ?_⟩
  · rw [Store.populate_eq] at h ⊢
    cases hgather : (gather device strict given s).1 with
    | error e =>
      rw [hgather] at h
      cases h
    | ok facts =>
      obtain ⟨text, traces, htext, htraces, haligned⟩ := aligned_of_gather hgather
      refine ⟨text, traces, facts, htext, htraces, ?_, haligned⟩
      rw [Store.routeMaps?, Store.get?]
      show (Entries.get? Store.routeMapsKey (Entries.insert Store.routeMapsKey _ _)).bind _ = _
      rw [Entries.get?_insert_self]
      rfl
  · obtain ⟨htraces, hfacts⟩ := configDetails_ok h
    obtain ⟨text, htext, haligned⟩ := aligned_of_collect htraces hfacts
    obtain rfl := Except.ok.inj htext
    exact ⟨htraces, haligned⟩

end

/-- A policy of which nothing is recognised, listed twice, and another one between. -/
def sparseAnswers : List (String × String) :=
  [(namesCommand, "route-policy A\nroute-policy B($x)\n route-policy B in\nroute-policy A"),
    (policyCommand "A", "route-policy A\n frobnicate\nend-policy"), (policyCommand "B", "drop")]

def sparseFacts : List Value :=
  [.dict [("name", .str "A")],
    .dict [("name", .str "B"), ("global", .dict [("drop", .bool true)])],
    .dict [("name", .str "A")]]

theorem gather_sparse :
    (gather (.transcript sparseAnswers) true none []).1 = .ok sparseFacts ∧
    (∃ text traces, listed (.transcript sparseAnswers) none [] = .ok text ∧
      (collect (.transcript sparseAnswers) true none []).1 = .ok traces ∧
      Aligned (policyNames text) traces sparseFacts) ∧
    (∃ text traces facts, listed (.transcript sparseAnswers) none [] = .ok text ∧
      (collect (.transcript sparseAnswers) true none []).1 = .ok traces ∧
      (Store.populate {} (.transcript sparseAnswers) true none []).1.2.routeMaps? = some facts ∧
      Aligned (policyNames text) traces facts) ∧
    (∃ traces facts, configDetails true Store.onePolicy = .ok (traces, facts) ∧
      configTraces true Store.onePolicy = .ok traces ∧
      Aligned (policyNames (listing Store.onePolicy)) traces facts) := by
  have hgather : (gather (.transcript sparseAnswers) true none []).1 = .ok sparseFacts := by
    decide +kernel
  have hpopulate : (Store.populate {} (.transcript sparseAnswers) true none []).1.1 = .ok () := by
    rw [Store.populate_eq, hgather]
    rfl
  have hsome : (configDetails true Store.onePolicy).toOption.isSome = true := by decide +kernel
  obtain ⟨⟨traces, facts⟩, hoption⟩ := Option.isSome_iff_exists.mp hsome
  have hdetails := ok_of_toOption hoption
  obtain ⟨hgathered, hpopulated, hreported⟩ :=
    gather_aligned (.transcript sparseAnswers) true none []
  exact ⟨hgather, hgathered _ hgather, hpopulated {} hpopulate,
    traces, facts, hdetails, hreported _ traces facts hdetails⟩

end RoutePolicy
