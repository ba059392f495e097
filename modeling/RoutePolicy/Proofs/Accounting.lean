import RoutePolicy.Proofs.ConditionCount
import RoutePolicy.Proofs.InertLine
import RoutePolicy.Proofs.LastWrite
import RoutePolicy.Proofs.PolicyBlock
import RoutePolicy.Proofs.Resolution

/-!
# Tallies account for every line

A tally is made from the scope of a policy.  Here it is read against the body that the scope was cut
from: what rules make of a body is what they make of its lines (`readings`), one line after the
other, and nothing is counted twice or left out on the way.

* `length_render`        every line of a body has its place in the scope;
* `length_events`        every statement and every clause is one event;
* `firstOrder_countAll`, `get?_countAll`, `countTotal_countAll`   what counting names gives;
* `incomplete_ofLines`   the lines of the incomplete branches, read off the body;
* `blockConditions_block`   the conditions in a block are what the clauses of its branch say.
-/

namespace RoutePolicy

open Value

/-! ## What is read in a line -/

/-- The texts in a body line that rules are tried on, each with the match that it has: a plain line
as it stands, the clauses of a branch line, and nothing in an `else`. -/
def readings (line : String) : List (String × Option Match) :=
  match boundary? line with
  | none => [(line, recognize LineClass.isStatement line)]
  | some (.branch _ condition) =>
    (clauses condition).map fun clause => (clause, recognize (· = .condition) clause)
  | some .otherwise => []

/-- the texts without a match -/
def missedTexts (body : List String) : List String :=
  ((body.flatMap readings).filter fun r => r.2.isNone).map Prod.fst

/-- the rules that match, one name for each match -/
def matchedRules (body : List String) : List String :=
  (body.flatMap readings).filterMap fun r => r.2.map fun m => m.rule.name

/-- a branch line with a clause that no rule recognises -/
def losesClause (line : String) : Bool :=
  match boundary? line with
  | some (.branch _ condition) =>
    (clauses condition).any fun clause => (recognize (· = .condition) clause).isNone
  | _ => false

def Event.ofReading (r : String × Option Match) : Event :=
  match r.2 with
  | some m => .hit m.rule.name
  | none => .miss r.1

theorem Event.ofReading_recognize (allowed : LineClass → Bool) (text : String) :
    Event.ofReading (text, recognize allowed text) = Event.ofText allowed text := by
  unfold ofReading ofText
  cases recognize allowed text <;> rfl

theorem lineEvents_eq {line : String} (h : Line.trim line = line) :
    lineEvents line = (readings line).map Event.ofReading := by
  rw [lineEvents, readings, h]
  cases boundary? line with
  | none => simp only [List.map_cons, List.map_nil, Event.ofReading_recognize]
  | some b =>
    cases b with
    | branch kind condition =>
      simp only [List.map_map, Function.comp_def, Event.ofReading_recognize]
    | otherwise => simp only [List.map_nil]

/-! ## Incomplete branches -/

theorem losesClause_branch {b : Branch} (h : boundary? b.line = some (.branch b.kind b.condition)) :
    losesClause b.line = b.isIncomplete := by
  have hclause : ∀ clause, (recognize (· = .condition) clause).isNone
      = (Event.ofText (· = .condition) clause).missed?.isSome := by
    intro clause
    rw [missed?_ofText]
    cases recognize (· = .condition) clause <;> rfl
  simp only [losesClause, h, Branch.isIncomplete, Branch.clauseEvents, Branch.clauses, List.any_map,
    Function.comp_def, hclause]

/-- the lines of the incomplete branches, repeated as they are -/
def Scope.incompleteLines (s : Scope) : List String :=
  (s.allBranches.filter Branch.isIncomplete).map Branch.line

theorem Scope.incompleteLines_addLine (s : Scope) (line : String) :
    (s.addLine line).incompleteLines = [line].filter losesClause ++ s.incompleteLines := by
  unfold incompleteLines addLine allBranches
  cases hline : boundary? line with
  | none =>
    rw [List.filter_cons_of_neg (by simp [losesClause, hline]), flatMap_mapLevel [] rfl]
    rfl
  | some b =>
    cases b with
    | branch kind condition =>
      have hloses := losesClause_branch (b := ⟨kind, line, condition, s.level.globals⟩) hline
      rw [flatMap_mapLevel [_] rfl, List.filter_append, List.map_append, List.filter_singleton,
        List.filter_singleton, hloses]
      cases Branch.isIncomplete ⟨kind, line, condition, s.level.globals⟩ <;> rfl
    | otherwise =>
      rw [List.filter_cons_of_neg (by simp [losesClause, hline])]
      rfl

section
variable {body : List String} (htrim : ∀ line ∈ body, Line.trim line = line)
include htrim

theorem events_ofLines_eq :
    (Scope.ofLines body).events = (body.flatMap readings).map Event.ofReading := by
  rw [Scope.events_ofLines, List.map_flatMap]
  exact List.flatMap_congr fun line hline => lineEvents_eq (htrim line hline)

theorem missed_ofLines :
    (Scope.ofLines body).events.filterMap Event.missed? = missedTexts body := by
  rw [events_ofLines_eq htrim, missedTexts, List.filterMap_map, ← List.filterMap_eq_filter,
    List.map_filterMap]
  congr 1
  funext r
  obtain ⟨text, _ | m⟩ := r <;> rfl

theorem rules_ofLines :
    (Scope.ofLines body).events.filterMap Event.rule? = matchedRules body := by
  rw [events_ofLines_eq htrim, matchedRules, List.filterMap_map]
  congr 1
  funext r
  obtain ⟨text, _ | m⟩ := r <;> rfl

theorem incomplete_ofLines :
    (Scope.ofLines body).incompleteLines = body.filter losesClause := by
  induction body with
  | nil => rfl
  | cons line body ih =>
    rw [Scope.ofLines_cons, htrim line List.mem_cons_self, Scope.incompleteLines_addLine,
      ih fun l hl => htrim l (List.mem_cons_of_mem _ hl), ← List.filter_append]
    rfl

end

/-! ## Every line has its place -/

theorem Level.length_render (l : Level) :
    l.render.length = l.globals.length + (l.branches.flatMap Branch.statements).length
      + l.branches.length := by
  obtain ⟨globals, branches⟩ := l
  rw [render, List.length_append]
  induction branches with
  | nil => rfl
  | cons b branches ih =>
    simp only [List.flatMap_cons, List.length_append, Branch.render, List.length_cons] at ih ⊢
    omega

theorem Scope.length_render (s : Scope) :
    s.render.length = (s.levels.flatMap Level.globals).length
      + (s.allBranches.flatMap Branch.statements).length + s.allBranches.length + s.elseDepth := by
  induction s with
  | last l =>
    have hbranches : (Scope.last l).allBranches = l.branches := List.append_nil _
    rw [hbranches, levels, List.flatMap_singleton]
    exact l.length_render
  | orElse l other ih =>
    have hbranches : (Scope.orElse l other).allBranches = l.branches ++ other.allBranches := rfl
    simp only [render, elseDepth, hbranches, levels, List.flatMap_cons, List.flatMap_append,
      List.length_append, List.length_cons, l.length_render, ih]
    omega

theorem Level.length_events (l : Level) :
    l.events.length = l.globals.length + (l.branches.flatMap Branch.statements).length
      + (l.branches.flatMap Branch.clauses).length := by
  obtain ⟨globals, branches⟩ := l
  rw [events, List.length_append, statementEvents, List.length_map]
  induction branches with
  | nil => rfl
  | cons b branches ih =>
    simp only [List.flatMap_cons, List.length_append, Branch.events, Branch.clauseEvents,
      statementEvents, List.length_map] at ih ⊢
    omega

theorem Scope.length_events (s : Scope) :
    s.events.length = (s.levels.flatMap Level.globals).length
      + (s.allBranches.flatMap Branch.statements).length
      + (s.allBranches.flatMap Branch.clauses).length := by
  unfold events allBranches
  induction s.levels with
  | nil => rfl
  | cons l levels ih =>
    simp only [List.flatMap_cons, List.flatMap_append, List.length_append, l.length_events, ih]
    omega

theorem length_rules_add_missed (events : List Event) :
    (events.filterMap Event.rule?).length + (events.filterMap Event.missed?).length
      = events.length := by
  induction events with
  | nil => rfl
  | cons e events ih =>
    cases e with
    | hit rule =>
      show (rule :: events.filterMap Event.rule?).length + (events.filterMap Event.missed?).length = _
      rw [List.length_cons, List.length_cons]
      omega
    | miss text =>
      show (events.filterMap Event.rule?).length + (text :: events.filterMap Event.missed?).length = _
      rw [List.length_cons, List.length_cons]
      omega

/-! ## Counting names -/

theorem countAll_concat (names : List String) (name : String) :
    countAll (names ++ [name]) = countOne (countAll names) name := by
  rw [countAll, List.foldl_concat, countAll]

theorem firstOrder_countAll (names : List String) :
    FirstOrder names (Entries.keys (countAll names)) := by
  induction names using List.reverseRecOn with
  | nil => exact .nil
  | append_singleton names name ih =>
    rw [countAll_concat]
    exact ih.insert name _

theorem get?_countAll (names : List String) (name : String) :
    (Entries.get? name (countAll names)).getD 0 = names.count name := by
  induction names using List.reverseRecOn with
  | nil => rfl
  | append_singleton names last ih =>
    rw [countAll_concat, countOne, List.count_append]
    by_cases hname : name = last
    · subst hname
      rw [Entries.get?_insert_self, ih, List.count_singleton_self]
      rfl
    · rw [Entries.get?_insert_ne hname, ih,
        List.count_eq_zero_of_not_mem fun h => hname (List.mem_singleton.mp h), Nat.add_zero]

theorem mem_countAll {names : List String} {hit : String × Nat} (h : hit ∈ countAll names) :
    hit.2 = names.count hit.1 ∧ 0 < hit.2 := by
  have hfirst := firstOrder_countAll names
  have hget := get?_countAll names hit.1
  rw [Entries.get?_of_mem hfirst.nodup h] at hget
  have hmem : hit.1 ∈ names := (hfirst.mem hit.1).mp (List.mem_map_of_mem h)
  have hpos : 0 < names.count hit.1 := List.count_pos_iff.mpr hmem
  rw [← hget] at hpos
  exact ⟨hget, hpos⟩

def countTotal (counts : List (String × Nat)) : Nat :=
  counts.foldr (fun hit n => hit.2 + n) 0

theorem countTotal_cons (hit : String × Nat) (counts : List (String × Nat)) :
    countTotal (hit :: counts) = hit.2 + countTotal counts := rfl

theorem countTotal_countOne (counts : List (String × Nat)) (name : String) :
    countTotal (countOne counts name) = countTotal counts + 1 := by
  unfold countOne
  induction counts with
  | nil => rfl
  | cons hit counts ih =>
    obtain ⟨k, n⟩ := hit
    rw [Entries.insert, Entries.get?]
    by_cases hk : k = name
    · rw [if_pos hk, if_pos hk, countTotal_cons, countTotal_cons, Option.getD_some]
      omega
    · rw [if_neg hk, if_neg hk, countTotal_cons, countTotal_cons, ih]
      omega

theorem countTotal_countAll (names : List String) : countTotal (countAll names) = names.length := by
  induction names using List.reverseRecOn with
  | nil => rfl
  | append_singleton names name ih =>
    rw [countAll_concat, countTotal_countOne, ih, List.length_append]
    rfl

/-! ## The conditions of a block -/

theorem isSome_clauseValue? (clause : String) :
    (clauseValue? clause).isSome = (recognize (· = .condition) clause).isSome := by
  cases hm : recognize (· = .condition) clause with
  | none => rw [clauseValue?, hm]; rfl
  | some m => rw [clauseValue?_of_recognize hm]; rfl

theorem length_conditions (b : Branch) :
    b.conditions.length
      = b.clauses.countP fun clause => (recognize (· = .condition) clause).isSome := by
  rw [Branch.conditions, List.length_filterMap_eq_countP]
  exact List.countP_congr fun clause _ => by rw [isSome_clauseValue?]

/-- no statement writes `conditions` -/
theorem get?_conditions_foldStatements (lines : List String) :
    Entries.get? "conditions" (foldStatements lines) = none := by
  cases h : Entries.get? "conditions" (foldStatements lines) with
  | none => rfl
  | some v =>
    obtain ⟨schema, hschema, _⟩ := draftEntries_foldStatements lines _ (Entries.mem_of_get? h)
    have hnone : Entries.get? "conditions" Schema.statementFields = none := rfl
    rw [hnone] at hschema
    cases hschema

theorem blockConditions_block (b : Branch) : blockConditions (.dict b.block) = b.conditions := by
  rw [blockConditions, get?_dict, Branch.block, get?_merge _ (distinct_foldStatements _).nodup,
    get?_conditions_foldStatements]
  split
  · rename_i hnil
    exact hnil.symm
  · rfl

/-! ## Traces -/

theorem segment_ok {strict : Bool} {lines : List String} {s : Scope}
    (h : segment strict lines = .ok s) : s = Scope.ofLines lines := by
  unfold segment at h
  split at h
  · cases h
  · exact (Except.ok.inj h).symm

theorem trim_of_mem_bodyLines {name text line : String} (h : line ∈ bodyLines name text) :
    Line.trim line = line := by
  obtain ⟨raw, _, rfl⟩ := exists_of_mem_bodyFrom h
  exact Line.trim_trim raw

theorem trace_parts {strict : Bool} {name text : String} {t : Trace}
    (h : trace strict name text = .ok t) :
    t.scope = Scope.ofLines (bodyLines name text) ∧
    t.document = document name (Scope.ofLines (bodyLines name text)) ∧
    t.tally = .ofScope (bodyLines name text).length (Scope.ofLines (bodyLines name text)) := by
  simp only [trace] at h
  split at h
  · cases h
  · rename_i scope hsegment
    obtain rfl := segment_ok hsegment
    obtain rfl := Except.ok.inj h
    exact ⟨rfl, rfl, rfl⟩

/-- What the tally of a policy accounts for, where `body` holds the lines that it was read from. -/
structure Accounted (body : List String) (t : Trace) : Prop where
  /-- every line stands before a branch or under one, or opens a branch or an `else` -/
  lines : t.tally.lines = (t.scope.levels.flatMap Level.globals).length
    + (t.scope.allBranches.flatMap Branch.statements).length + t.scope.allBranches.length
    + t.scope.elseDepth
  /-- every statement and every clause is counted or listed -/
  total : t.tally.recognized + t.tally.unrecognized.length
    = (t.scope.levels.flatMap Level.globals).length
      + (t.scope.allBranches.flatMap Branch.statements).length
      + (t.scope.allBranches.flatMap Branch.clauses).length
  /-- the list follows the body, and the clauses of a branch the order of its line -/
  unrecognized : t.tally.unrecognized = missedTexts body
  /-- each rule that matched is counted once, in the order of the first matches -/
  rules : FirstOrder (matchedRules body) (Entries.keys t.tally.hits)
  /-- its count is the number of its matches -/
  counts : ∀ hit ∈ t.tally.hits, hit.2 = (matchedRules body).count hit.1 ∧ 0 < hit.2
  /-- the blocks of the document are those of the branches, and have a condition for each clause that
  is recognised -/
  conditions : ∃ branches : List Branch, branches.Perm t.scope.allBranches ∧
    (Value.dict t.document).blocks = branches.map (fun b => .dict b.block) ∧
    ∀ b ∈ branches, (blockConditions (.dict b.block)).length
      = b.clauses.countP fun clause => (recognize (· = .condition) clause).isSome
  /-- each branch line that loses a clause is listed once, in the order of the body -/
  incomplete : FirstOrder (body.filter losesClause) t.tally.incomplete

/-- **Tallies account for everything.**  Whenever a policy is read from a text, strictly or not, its
tally is accounted for by the body lines that the text has for it. -/
theorem trace_accounted {strict : Bool} {name text : String} {t : Trace}
    (h : trace strict name text = .ok t) : Accounted (bodyLines name text) t := by
  have htrim : ∀ line ∈ bodyLines name text, Line.trim line = line := fun _ hline =>
    trim_of_mem_bodyLines hline
  obtain ⟨hscope, hdocument, htally⟩ := trace_parts h
  obtain ⟨traced, scope, made, tally⟩ := t
  obtain rfl : scope = _ := hscope
  obtain rfl : made = _ := hdocument
  obtain rfl : tally = _ := htally
  have hrules := rules_ofLines htrim
  have hmissed := missed_ofLines htrim
  constructor
  case lines =>
    rw [← Scope.length_render, Scope.render_ofLines, List.length_map]
    rfl
  case total =>
    rw [← Scope.length_events, ← length_rules_add_missed]
    show countTotal (countAll _) + _ = _
    rw [countTotal_countAll]
    rfl
  case unrecognized => exact hmissed
  case rules =>
    rw [← hrules]
    exact firstOrder_countAll _
  case counts =>
    intro hit hhit
    rw [← hrules]
    exact mem_countAll hhit
  case conditions =>
    refine ⟨(Scope.ofLines (bodyLines name text)).placed, placed_perm _, blocks_document _ _, ?_⟩
    intro b _
    rw [blockConditions_block, length_conditions]
  case incomplete =>
    rw [← incomplete_ofLines htrim]
    exact .eraseDups _

/-- One branch line on two levels, with a clause that is no condition. -/
def repeatedBranch : String :=
  Line.join ["oops", "if med eq 1 or x then", "pass", "else", "if med eq 1 or x then", "pass"]

theorem trace_accounted_repeatedBranch :
    ∃ t, trace true "P" repeatedBranch = .ok t ∧ Accounted (bodyLines "P" repeatedBranch) t ∧
      t.tally =
        { lines := 6
          hits := [("conditions.med", 2), ("pass", 2)]
          unrecognized := ["oops", "x", "x"]
          incomplete := ["if med eq 1 or x then"] } := by
  have heval : (trace true "P" repeatedBranch).toOption.map Trace.tally = some
      { lines := 6
        hits := [("conditions.med", 2), ("pass", 2)]
        unrecognized := ["oops", "x", "x"]
        incomplete := ["if med eq 1 or x then"] } := by
    decide +kernel
  obtain ⟨t, ht, htally⟩ := Option.map_eq_some_iff.mp heval
  have htrace := ok_of_toOption ht
  exact ⟨t, htrace, trace_accounted htrace, htally⟩

end RoutePolicy
