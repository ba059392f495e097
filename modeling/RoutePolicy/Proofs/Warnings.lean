import Mathlib.Data.List.Basic
import RoutePolicy.Warning
import RoutePolicy.Proofs.RunningConfig
import RoutePolicy.Proofs.StrayBranch

/-!
# What a configuration is warned of

A body that is read is warned of for its stray lines and for the clauses that no rule recognises,
and for nothing else.  Over a configuration the warnings of the policies follow one another, up to
the first policy that is refused.

* `mem_strayLines`            the lines warned of are the stray lines;
* `mem_bodyWarnings`          what a body is warned of;
* `bodyWarnings_eq_nil_iff`   and when it is warned of nothing;
* `configWarnings_eq`         the warnings of a configuration, policy after policy.
-/

namespace RoutePolicy

/-! ## Stray lines -/

seal boundary? in
theorem strayLines_cons (opened : Bool) (number : Nat) (line : String) (rest : List String) :
    strayLines opened number (line :: rest) = match boundary? line with
      | none => strayLines opened (number + 1) rest
      | some (.branch .ifThen _) => strayLines true (number + 1) rest
      | some (.branch .elseIf _) =>
        (if opened then [] else [{ number, text := Line.trim line }])
          ++ strayLines true (number + 1) rest
      | some .otherwise =>
        (if opened then [] else [{ number, text := Line.trim line }])
          ++ strayLines false (number + 1) rest := by
  rw [← boundary?_trim]
  rfl

theorem strayLines_cons_of_stray {line : String} (h : ContinuesBranch line) (number : Nat)
    (rest : List String) :
    strayLines false number (line :: rest) = { number, text := Line.trim line }
      :: strayLines (openedBy false (boundary? line)) (number + 1) rest := by
  rw [strayLines_cons]
  rcases h with h | ⟨condition, h⟩ <;> rw [h] <;> rfl

theorem strayLines_cons_of_not_stray {opened : Bool} {line : String}
    (h : ¬ (ContinuesBranch line ∧ opened = false)) (number : Nat) (rest : List String) :
    strayLines opened number (line :: rest)
      = strayLines (openedBy opened (boundary? line)) (number + 1) rest := by
  rw [strayLines_cons]
  rcases not_stray_cases h with rfl | hline | ⟨condition, hline⟩
  · rcases boundary? line with _ | ⟨_ | _, condition⟩ | _ <;> rfl
  · rw [hline]
    rfl
  · rw [hline]
    rfl

theorem mem_strayLines {opened : Bool} {number : Nat} {lines : List String} {stray : StrayBranch} :
    stray ∈ strayLines opened number lines ↔ StrayFrom opened number lines stray := by
  induction lines generalizing opened number with
  | nil =>
    refine iff_of_false (List.not_mem_nil) ?_
    rintro ⟨before, line, after, hlines, _⟩
    exact absurd hlines (by simp)
  | cons line rest ih =>
    rw [strayFrom_cons, ← ih]
    by_cases hstray : ContinuesBranch line ∧ opened = false
    · obtain ⟨hcontinues, rfl⟩ := hstray
      simp only [strayLines_cons_of_stray hcontinues, List.mem_cons, hcontinues, true_and]
    · rw [strayLines_cons_of_not_stray hstray, or_iff_right]
      exact fun h => hstray ⟨h.1, h.2.1⟩

/-! ## One body -/

theorem mem_lostClauses {b : Branch} {clause : String} :
    clause ∈ b.lostClauses ↔ clause ∈ b.clauses ∧ recognize (· = .condition) clause = none := by
  have hmissed : ∀ text, (Event.ofText (· = .condition) text).missed? = some clause ↔
      text = clause ∧ recognize (· = .condition) clause = none := by
    intro text
    rw [Event.ofText]
    cases hrecognized : recognize (· = .condition) text with
    | some m =>
      refine iff_of_false (by simp [Event.missed?]) ?_
      rintro ⟨rfl, hnone⟩
      rw [hrecognized] at hnone
      cases hnone
    | none =>
      constructor
      · intro h
        obtain rfl := Option.some.inj h
        exact ⟨rfl, hrecognized⟩
      · rintro ⟨rfl, _⟩
        rfl
  rw [Branch.lostClauses, Branch.clauseEvents, List.filterMap_map, List.mem_filterMap]
  constructor
  · rintro ⟨text, htext, h⟩
    obtain ⟨rfl, hnone⟩ := (hmissed text).mp h
    exact ⟨htext, hnone⟩
  · rintro ⟨hclause, hnone⟩
    exact ⟨clause, hclause, (hmissed clause).mpr ⟨rfl, hnone⟩⟩

theorem lostClauses_eq_nil_iff {b : Branch} : b.lostClauses = [] ↔ b.isIncomplete = false := by
  rw [Branch.lostClauses, Branch.isIncomplete, List.filterMap_eq_nil_iff, List.any_eq_false]
  simp only [Bool.not_eq_true, Option.isSome_eq_false_iff, Option.isNone_iff_eq_none]

/-- **What a body is warned of.**  Each stray line gives a warning with its number and its trimmed
text, each clause that no rule recognises one with the line of its branch, and there are no other
warnings. -/
theorem mem_bodyWarnings (lines : List String) :
    (∀ stray, .strayBranch stray ∈ bodyWarnings lines ↔
      ∃ line, StrayLine lines stray.number line ∧ stray.text = Line.trim line) ∧
    (∀ clause branch, .lostClause clause branch ∈ bodyWarnings lines ↔
      ∃ b ∈ (Scope.ofLines lines).allBranches, b.line = branch ∧ clause ∈ b.clauses ∧
        recognize (· = .condition) clause = none) := by
  constructor
  · intro stray
    rw [← strayFrom_iff, ← mem_strayLines]
    simp [bodyWarnings]
  · intro clause branch
    simp only [bodyWarnings, List.mem_append, List.mem_map, List.mem_flatMap, reduceCtorEq,
      and_false, exists_false, false_or, Warning.lostClause.injEq, mem_lostClauses]
    constructor
    · rintro ⟨b, hb, other, hother, rfl, hline⟩
      exact ⟨b, hb, hline, hother⟩
    · rintro ⟨b, hb, hline, hclause⟩
      exact ⟨b, hb, clause, hclause, rfl, hline⟩

theorem bodyWarnings_eq_nil_iff {lines : List String} :
    bodyWarnings lines = [] ↔ (∀ n line, ¬ StrayLine lines n line) ∧
      ∀ b ∈ (Scope.ofLines lines).allBranches, b.isIncomplete = false := by
  have hstray : strayLines false 1 lines = [] ↔ ∀ n line, ¬ StrayLine lines n line := by
    rw [List.eq_nil_iff_forall_not_mem]
    simp only [mem_strayLines, strayFrom_iff]
    constructor
    · intro h n line hline
      exact h ⟨n, Line.trim line⟩ ⟨line, hline, rfl⟩
    · rintro h stray ⟨line, hline, _⟩
      exact h stray.number line hline
  rw [bodyWarnings, List.append_eq_nil_iff, List.map_eq_nil_iff, hstray, List.flatMap_eq_nil_iff]
  simp only [List.map_eq_nil_iff, lostClauses_eq_nil_iff]

/-! ## Every policy of a configuration -/

theorem collectNamesWarnings_runningConfig {config : String} (strict : Bool) {names : List String}
    (h : ∀ name ∈ names, ∃ line ∈ Line.ofText config, headerName? line = some name) :
    collectNamesWarnings (.runningConfig config) strict names ()
      = (names.takeWhile fun name => (trace strict name config).isOk).flatMap fun name =>
          bodyWarnings (bodyLines name config) := by
  induction names with
  | nil => rfl
  | cons name names ih =>
    have hname := h name List.mem_cons_self
    have ih' := ih fun other hother => h other (List.mem_cons_of_mem _ hother)
    rw [collectNamesWarnings, fetch_policyCommand hname, List.takeWhile_cons]
    simp only [trace_policyBlock hname, bodyLines_policyBlock hname, ih']
    cases trace strict name config with
    | error e => rfl
    | ok t => rfl

/-- The policies of a configuration give their warnings one after the other, up to the first that is
refused. -/
theorem configWarnings_eq (strict : Bool) (config : String) :
    configWarnings strict config
      = ((policyNames config).takeWhile fun name => (trace strict name config).isOk).flatMap
          fun name => bodyWarnings (bodyLines name config) := by
  have hnames : fetch (.runningConfig config) namesCommand () = (.ok (listing config), ()) := rfl
  rw [configWarnings, collectWarnings]
  simp only [hnames]
  rw [policyNames_listing,
    collectNamesWarnings_runningConfig strict fun _ hname => opened_of_mem_policyNames hname]

end RoutePolicy
