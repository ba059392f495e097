import Mathlib.Data.List.TakeWhile
import RoutePolicy.Command.Run
import RoutePolicy.Proofs.ErrorMessage
import RoutePolicy.Proofs.StoreRun
import RoutePolicy.Proofs.Warnings

/-!
# How the command fails

The command takes one of three ways through a configuration: it fills a store, it collects policies
and checks them, or it only collects them.  The first two end in the same error, since both are
gathering; the third leaves out the check of documents, so it knows no error but a stray branch.
All three give the same warnings, and a log shows them before the error.

* `execute_tells_facts`         without `--tree`, the outcome tells how `configFacts` ended;
* `execute_tells_traces`        with it, how `configTraces` ended;
* `configTraces_fails_iff`      and that fails at a stray branch of some policy;
* `configWarnings_eq_nil_iff`   when there is nothing to show before the error;
* `exists_execute`              a run that exits with 1 got as far as its configuration.
-/

namespace RoutePolicy

/-! ## Results -/

section
variable {ε α β : Type}

theorem bind_ok {x : Except ε α} {f : α → Except ε β} {b : β} (h : x >>= f = .ok b) :
    ∃ a, x = .ok a ∧ f a = .ok b := by
  cases x with
  | error e => cases h
  | ok a => exact ⟨a, rfl, h⟩

theorem ok_of_mem_mapM {f : α → Except ε β} {as : List α} {bs : List β} (h : as.mapM f = .ok bs)
    {a : α} (ha : a ∈ as) : ∃ b, f a = .ok b := by
  induction as generalizing bs with
  | nil => cases ha
  | cons first as ih =>
    obtain ⟨b, rest, hb, hrest, _⟩ := mapM_cons_ok h
    rcases List.mem_cons.mp ha with rfl | ha
    · exact ⟨b, hb⟩
    · exact ih hrest ha

theorem mapM_fails_iff {f : α → Except ε β} {as : List α} :
    (∃ e, as.mapM f = .error e) ↔ ∃ a ∈ as, ∃ e, f a = .error e := by
  constructor
  · rintro ⟨e, h⟩
    obtain ⟨a, ha, hfails⟩ := mapM_error h
    exact ⟨a, ha, e, hfails⟩
  · rintro ⟨a, ha, e, hfails⟩
    cases h : as.mapM f with
    | error e' => exact ⟨e', rfl⟩
    | ok bs =>
      obtain ⟨b, hb⟩ := ok_of_mem_mapM h ha
      rw [hfails] at hb
      cases hb

end

/-! ## Policies with a stray branch -/

/-- Some policy that the configuration opens has a stray branch line in its body. -/
def HasStrayBranch (config : String) : Prop :=
  ∃ name ∈ policyNames config, ∃ n line, StrayLine (bodyLines name config) n line

theorem trace_fails_iff {strict : Bool} {name text : String} :
    (∃ e, trace strict name text = .error e) ↔
      strict = true ∧ ∃ n line, StrayLine (bodyLines name text) n line := by
  simp only [trace_eq_error_iff]
  cases hstray : firstStray false 1 (bodyLines name text) with
  | none =>
    have hclean := firstStray_eq_none_iff.mp hstray
    refine iff_of_false (by simp) ?_
    rintro ⟨_, n, line, hline⟩
    exact hclean n line hline
  | some stray =>
    obtain ⟨line, hline, _⟩ := strayFrom_iff.mp (firstStray_eq_some_iff.mp hstray).1
    constructor
    · rintro ⟨e, hstrict, _⟩
      exact ⟨hstrict, stray.number, line, hline⟩
    · rintro ⟨hstrict, _⟩
      exact ⟨.strayBranch stray, hstrict, stray, rfl, rfl⟩

theorem configTraces_fails_iff {strict : Bool} {config : String} :
    (∃ e, configTraces strict config = .error e) ↔ strict = true ∧ HasStrayBranch config := by
  rw [configTraces_eq, mapM_fails_iff]
  simp only [trace_fails_iff]
  constructor
  · rintro ⟨name, hname, hstrict, hstray⟩
    exact ⟨hstrict, name, hname, hstray⟩
  · rintro ⟨hstrict, name, hname, hstray⟩
    exact ⟨name, hname, hstrict, hstray⟩

/-- Some policy that the configuration opens has a branch with a clause that no rule recognises. -/
def HasLostClause (config : String) : Prop :=
  ∃ name ∈ policyNames config, ∃ b ∈ (Scope.ofLines (bodyLines name config)).allBranches,
    b.isIncomplete = true

/-- Where every policy is read, a warning is given just if something is out of order in one. -/
theorem configWarnings_eq_nil_iff {strict : Bool} {config : String}
    (hread : strict = true → ¬ HasStrayBranch config) :
    configWarnings strict config = [] ↔ ¬ HasStrayBranch config ∧ ¬ HasLostClause config := by
  have hall : ∀ name ∈ policyNames config, (trace strict name config).isOk = true := by
    intro name hname
    cases htrace : trace strict name config with
    | error e =>
      obtain ⟨hstrict, hstray⟩ := trace_fails_iff.mp ⟨e, htrace⟩
      exact absurd ⟨name, hname, hstray⟩ (hread hstrict)
    | ok t => rfl
  rw [configWarnings_eq, List.takeWhile_eq_self_iff.mpr hall, List.flatMap_eq_nil_iff]
  simp only [bodyWarnings_eq_nil_iff, HasStrayBranch, HasLostClause]
  push Not
  simp only [forall_and, Bool.not_eq_true]

namespace Command

/-! ## Outcomes -/

/-- A result and the outcome that tells of it. -/
inductive Outcome.Tells {α : Type} (warnings : List Warning) : Outcome → Except Error α → Prop where
  | failure (e : Error) : Tells warnings (.failure warnings e) (.error e)
  | success (text : String) (a : α) : Tells warnings (.success warnings text) (.ok a)

namespace Outcome.Tells
variable {α : Type} {warnings : List Warning} {outcome other : Outcome} {result : Except Error α}

theorem same_failure (h : outcome.Tells warnings result) (hother : other.Tells warnings result) :
    outcome.exit = other.exit ∧ ∀ log, outcome.stderr log = other.stderr log := by
  cases h <;> cases hother <;> exact ⟨rfl, fun _ => rfl⟩

theorem warnings_eq (h : outcome.Tells warnings result) : outcome.warnings = warnings := by
  cases h <;> rfl

theorem exit_eq_one_iff (h : outcome.Tells warnings result) :
    outcome.exit = 1 ↔ ∃ e, result = .error e := by
  cases h with
  | failure e => exact iff_of_true rfl ⟨e, rfl⟩
  | success text a => exact iff_of_false (by simp [Outcome.success]) (by simp)

theorem exit_eq_zero (h : outcome.Tells warnings result) (hexit : outcome.exit ≠ 1) :
    outcome.exit = 0 := by
  cases h with
  | failure e => exact absurd rfl hexit
  | success text a => rfl

end Outcome.Tells

/-- The outcome of a failure that is told in one line, behind what the log shows of the warnings. -/
def Outcome.FailsBriefly (outcome : Outcome) : Prop :=
  outcome.stdout = "" ∧
    ∃ e : Error, '\n' ∉ e.message.toList ∧ e.cause? = none ∧
      ∀ log : Log, outcome.stderr log
        = String.join (outcome.warnings.map log) ++ ("error: " ++ e.message ++ "\n")

theorem Outcome.Tells.failsBriefly {α : Type} {warnings : List Warning} {outcome : Outcome}
    {result : Except Error α} (h : outcome.Tells warnings result)
    (hbrief : ∀ e, result = .error e → e.Brief) (hexit : outcome.exit = 1) :
    outcome.FailsBriefly := by
  cases h with
  | failure e =>
    have he := hbrief e rfl
    refine ⟨rfl, e, he.oneLine, he.noCause, fun log => ?_⟩
    rw [Outcome.stderr, Outcome.failure, he.noCause]
    exact congrArg (String.join (warnings.map log) ++ ·) String.append_empty
  | success text a => exact absurd hexit (by simp [Outcome.success])

/-! ## Three ways through a configuration -/

theorem map_configDetails (strict : Bool) (config : String) :
    (configDetails strict config).map Prod.snd = configFacts strict config := by
  rw [configDetails_eq, configFacts_eq]
  cases configTraces strict config with
  | error e => rfl
  | ok traces => cases hfacts : factsOf traces <;> simp only [Except.bind, hfacts, Except.map]

theorem populate_config (store : Store) (strict : Bool) (config : String) :
    (store.populate (.runningConfig config) strict none ()).1
      = ((configFacts strict config).map fun _ => (),
          store.afterGather (configFacts strict config)) := by
  rw [Store.populate_eq, configFacts]

section
variable (terminal : Bool) (options : Options) (config : String)

theorem execute_tells_facts (htree : options.tree = false) :
    (execute terminal options config).Tells (configWarnings options.strict config)
      (configFacts options.strict config) := by
  cases hverbose : options.verbose with
  | true =>
    rw [execute, if_pos hverbose, ← map_configDetails]
    cases configDetails options.strict config with
    | error e => exact .failure e
    | ok details => exact .success _ details.2
  | false =>
    rw [execute, if_neg (by simp [hverbose]), if_neg (by simp [htree])]
    simp only [populate_config]
    cases configFacts options.strict config with
    | error e => exact .failure e
    | ok facts => exact .success _ facts

theorem execute_tells_traces (htree : options.tree = true) (hverbose : options.verbose = false) :
    (execute terminal options config).Tells (configWarnings options.strict config)
      (configTraces options.strict config) := by
  rw [execute, hverbose, htree]
  cases configTraces options.strict config with
  | error e => exact .failure e
  | ok traces => exact .success _ traces

end

/-! ## Runs -/

theorem Outcome.exit_refused_ne (text : String) : (Outcome.refused text).exit ≠ 1 := by
  simp [Outcome.refused]

theorem Ending.exit_outcome_ne (ending : Ending) : ending.outcome.exit ≠ 1 := by
  cases ending with
  | refused e => exact Outcome.exit_refused_ne _
  | help => simp [Ending.outcome, Outcome.success]
  | version => simp [Ending.outcome, Outcome.success]

theorem isConsistent_of_ofWords {words : List String} {options : Options}
    (h : Options.ofWords words = .ok options) : options.isConsistent = true := by
  rw [Options.ofWords] at h
  obtain ⟨added, _, h⟩ := bind_ok h
  split at h
  · rename_i hconsistent
    obtain rfl := Except.ok.inj h
    exact hconsistent
  · cases h

theorem verbose_of_tree {words : List String} {options : Options}
    (h : Options.ofWords words = .ok options) (htree : options.tree = true) :
    options.verbose = false := by
  have hconsistent := isConsistent_of_ofWords h
  rw [Options.isConsistent, htree] at hconsistent
  simpa using (Bool.and_eq_true_iff.mp hconsistent).1

/-- The words are a command line, and it takes its configuration from the standard input. -/
def FromStdin (words : List String) (options : Options) : Prop :=
  Options.ofWords words = .ok options ∧ options.file? = none

section
variable {terminal : Bool} {files : String → Option String} {words : List String} {stdin : String}
  {options : Options}

theorem run_fromStdin (h : FromStdin words options) :
    run terminal files words stdin = execute terminal options stdin := by
  rw [run, h.1]
  simp only [h.2]

theorem warnings_fromStdin (h : FromStdin words options) :
    (run terminal files words stdin).warnings = configWarnings options.strict stdin := by
  rw [run_fromStdin h]
  cases htree : options.tree with
  | false => exact (execute_tells_facts terminal options stdin htree).warnings_eq
  | true =>
    have hverbose := verbose_of_tree h.1 htree
    exact (execute_tells_traces terminal options stdin htree hverbose).warnings_eq

theorem exists_execute (h : (run terminal files words stdin).exit = 1) :
    ∃ options config, Options.ofWords words = .ok options ∧
      run terminal files words stdin = execute terminal options config := by
  cases hwords : Options.ofWords words with
  | error ending =>
    rw [run, hwords] at h
    exact absurd h ending.exit_outcome_ne
  | ok options =>
    rw [run, hwords] at h ⊢
    cases hfile : options.file? with
    | none => exact ⟨options, stdin, rfl, by simp only [hfile]⟩
    | some file =>
      simp only [hfile] at h ⊢
      cases hconfig : files file with
      | none =>
        rw [hconfig] at h
        exact absurd h (Outcome.exit_refused_ne _)
      | some config => exact ⟨options, config, rfl, rfl⟩

theorem failsBriefly_of_run (h : (run terminal files words stdin).exit = 1) :
    (run terminal files words stdin).FailsBriefly := by
  obtain ⟨options, config, hwords, hrun⟩ := exists_execute h
  rw [hrun] at h ⊢
  cases htree : options.tree with
  | false =>
    have htells := execute_tells_facts terminal options config htree
    exact htells.failsBriefly (fun _ => brief_of_configFacts) h
  | true =>
    have htells := execute_tells_traces terminal options config htree (verbose_of_tree hwords htree)
    exact htells.failsBriefly (fun _ => brief_of_configTraces) h

end

/-- **The ways to run the command fail alike.**  Whatever the standard input, all command lines
without `--tree` that are equally strict exit with one code, that of the facts, and write the same
errors, however the log shows the warnings.  With `--tree` a run fails exactly when it is strict and
some policy has a stray branch.  A run that exits with 1, wherever its configuration comes from,
prints nothing and tells its error in one line behind the log.  And all command lines that are
equally strict give the same warnings; where every policy is read there are none just if no policy
has a stray branch or a clause that is not recognised. -/
theorem run_failure_agrees (stdin : String) :
    (∀ terminal files words options terminal' files' words' options',
      FromStdin words options → FromStdin words' options' → options.tree = false →
      options'.tree = false → options.strict = options'.strict →
      (run terminal files words stdin).exit = (run terminal' files' words' stdin).exit ∧
      (∀ log, (run terminal files words stdin).stderr log
        = (run terminal' files' words' stdin).stderr log) ∧
      ((run terminal files words stdin).exit = 1 ↔
        ∃ e, configFacts options.strict stdin = .error e)) ∧
    (∀ terminal files words options, FromStdin words options → options.tree = true →
      ((run terminal files words stdin).exit = 1 ↔
        options.strict = true ∧ HasStrayBranch stdin) ∧
      (options.strict = false → (run terminal files words stdin).exit = 0)) ∧
    (∀ terminal files words, (run terminal files words stdin).exit = 1 →
      (run terminal files words stdin).FailsBriefly) ∧
    (∀ terminal files words options, FromStdin words options →
      (run terminal files words stdin).warnings = configWarnings options.strict stdin ∧
      ((options.strict = true → ¬ HasStrayBranch stdin) →
        ((run terminal files words stdin).warnings = [] ↔
          ¬ HasStrayBranch stdin ∧ ¬ HasLostClause stdin))) := by
  refine ⟨?_, ?_, fun terminal files words => failsBriefly_of_run, ?_⟩
  · intro terminal files words options terminal' files' words' options' h h' htree htree' hstrict
    have htells := execute_tells_facts terminal options stdin htree
    have htells' := execute_tells_facts terminal' options' stdin htree'
    rw [← hstrict] at htells'
    rw [run_fromStdin h, run_fromStdin h']
    obtain ⟨hexit, hstderr⟩ := htells.same_failure htells'
    exact ⟨hexit, hstderr, htells.exit_eq_one_iff⟩
  · intro terminal files words options h htree
    have htells := execute_tells_traces terminal options stdin htree (verbose_of_tree h.1 htree)
    rw [run_fromStdin h]
    have hiff := htells.exit_eq_one_iff.trans configTraces_fails_iff
    refine ⟨hiff, fun hlenient => htells.exit_eq_zero fun hexit => ?_⟩
    rw [hlenient] at hiff
    exact absurd (hiff.mp hexit).1 (by simp)
  · intro terminal files words options h
    refine ⟨warnings_fromStdin h, fun hread => ?_⟩
    rw [warnings_fromStdin h, configWarnings_eq_nil_iff hread]

/-- The second policy has a stray `else`, and a number with more than 64 bits. -/
def strayElse : String :=
  "route-policy A\n pass\nend-policy\nroute-policy B\n set tag 99999999999999999999\n else\n  drop\n"

theorem run_strayElse :
    (FromStdin ["-vp", "--color"] { verbose := true, pretty := true, color := true } ∧
      FromStdin ["-i", "-"] { input := some "-" } ∧
      (∃ e, configFacts false strayElse = .error e) ∧
      (run true (fun _ => none) ["-vp", "--color"] strayElse).exit = 1 ∧
      (∀ log, (run true (fun _ => none) ["-vp", "--color"] strayElse).stderr log
        = (run false (fun _ => none) ["-i", "-"] strayElse).stderr log) ∧
      (run true (fun _ => none) ["-vp", "--color"] strayElse).FailsBriefly) ∧
    (FromStdin ["--tree"] { tree := true } ∧
      (run true (fun _ => none) ["--tree"] strayElse).exit = 0 ∧
      (run true (fun _ => none) ["--tree"] strayElse).warnings ≠ []) ∧
    (FromStdin ["--tree", "--strict"] { tree := true, strict := true } ∧
      HasStrayBranch strayElse ∧
      (run true (fun _ => none) ["--tree", "--strict"] strayElse).exit = 1 ∧
      (run true (fun _ => none) ["--tree", "--strict"] strayElse).FailsBriefly) := by
  have hreport : FromStdin ["-vp", "--color"] { verbose := true, pretty := true, color := true } :=
    ⟨by decide +kernel, rfl⟩
  have hfacts : FromStdin ["-i", "-"] { input := some "-" } := ⟨by decide +kernel, by decide⟩
  have htree : FromStdin ["--tree"] { tree := true } := ⟨by decide +kernel, rfl⟩
  have hstrict : FromStdin ["--tree", "--strict"] { tree := true, strict := true } :=
    ⟨by decide +kernel, rfl⟩
  obtain ⟨hmodes, htrees, hbrief, hwarned⟩ := run_failure_agrees strayElse
  have hnames : policyNames strayElse = ["A", "B"] := by decide +kernel
  have hlarge : ∃ e, configFacts false strayElse = .error e := by
    rw [configFacts_eq, configTraces_eq, hnames]
    exact error_of_toOption (by decide +kernel)
  have hstray : HasStrayBranch strayElse := by
    have hfirst : firstStray false 1 (bodyLines "B" strayElse) = some ⟨2, "else"⟩ := by
      decide +kernel
    obtain ⟨line, hline, _⟩ := strayFrom_iff.mp (firstStray_eq_some_iff.mp hfirst).1
    exact ⟨"B", by simp [hnames], 2, line, hline⟩
  obtain ⟨_, hstderr, hexit⟩ := hmodes true (fun _ => none) _ _ false (fun _ => none) _ _
    hreport hfacts rfl rfl rfl
  have hfails := hexit.mpr hlarge
  have hlenient := (htrees true (fun _ => none) _ _ htree rfl).2 rfl
  have hshown := (hwarned true (fun _ => none) _ _ htree).2 (by simp)
  have hrefused := (htrees true (fun _ => none) _ _ hstrict rfl).1.mpr ⟨rfl, hstray⟩
  exact ⟨⟨hreport, hfacts, hlarge, hfails, hstderr, hbrief _ _ _ hfails⟩,
    ⟨htree, hlenient, fun hnone => (hshown.mp hnone).1 hstray⟩,
    hstrict, hstray, hrefused, hbrief _ _ _ hrefused⟩

/-- A policy with a clause that no rule recognises, and a number with more than 64 bits. -/
def lostCondition : String :=
  "route-policy P\n if not med eq 1 then\n  set weight 99999999999999999999\n endif\nend-policy\n"

/-- A failing run with its log writes more than the line for its error.  And `--verbose` does not
fail like the facts with every choice of colours, since not all go together. -/
theorem failure_behindWarnings :
    (run false (fun _ => none) [] lostCondition).exit = 1 ∧
    (∀ message, (run false (fun _ => none) [] lostCondition).stderr Log.lines
      ≠ "error: " ++ message ++ "\n") ∧
    (run false (fun _ => none) ["--verbose", "--color", "--no-color"] lostCondition).exit = 2 := by
  have hwords : FromStdin [] {} := ⟨by decide +kernel, rfl⟩
  have hnames : policyNames lostCondition = ["P"] := by decide +kernel
  have hlarge : ∃ e, configFacts false lostCondition = .error e := by
    rw [configFacts_eq, configTraces_eq, hnames]
    exact error_of_toOption (by decide +kernel)
  have hwarnings : configWarnings false lostCondition
      = [.lostClause "not med eq 1" "if not med eq 1 then"] := by
    rw [configWarnings_eq, hnames]
    decide +kernel
  have htells := execute_tells_facts false {} lostCondition rfl
  rw [run_fromStdin hwords]
  refine ⟨htells.exit_eq_one_iff.mpr hlarge, fun message hline => ?_, by decide +kernel⟩
  have hfirst := congrArg (fun text : String => text.toList.head?) hline
  rw [Outcome.stderr, htells.warnings_eq, hwarnings] at hfirst
  simp [Log.lines] at hfirst

end Command

end RoutePolicy
