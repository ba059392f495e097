import RoutePolicy.Proofs.BoundaryLine
import RoutePolicy.Proofs.Validation

/-!
# How many conditions a branch keeps

The policy with the one branch `if C then` and `drop` under it, followed from its text to its facts.
A branch with a clause that no rule recognises is reported as incomplete.  A clause that is the
keywords of its rule and nothing else is recognised, but leaves a mapping without fields, and pruning
takes it away: no report, and one condition fewer.

* `boundary?_ifLine`       the condition of the branch is `C`, trimmed;
* `prune?_clause`          of a recognised clause, pruning leaves its key and its fields, or nothing
                           when it is bare;
* `keys_pruneItems`        so the clauses that are not bare are left, in order;
* `finish_dropBlock`       and they are the conditions of the `if` block in the facts.
-/

namespace RoutePolicy

/-! ## A policy of one branch -/

/-- The line that opens a branch with this condition. -/
def ifLine (condition : String) : String :=
  "if " ++ condition ++ " then"

/-- The body of a policy that drops what a condition lets through. -/
def guardedDrop (condition : String) : List String :=
  [ifLine condition, "drop"]

theorem toList_ifLine (C : String) :
    (ifLine C).toList = 'i' :: 'f' :: ' ' :: (C.toList ++ " then".toList) := by
  simp [ifLine]

theorem toList_ifLine_concat (C : String) :
    (ifLine C).toList = ('i' :: 'f' :: ' ' :: (C.toList ++ " the".toList)) ++ ['n'] := by
  simp [ifLine]

theorem text_trim_ifLine (C : String) : Text.trim (ifLine C).toList = (ifLine C).toList := by
  have hi : Text.isBlank 'i' = false := by decide +kernel
  have hn : Text.isBlank 'n' = false := by decide +kernel
  rw [Text.trim, toList_ifLine, Text.trimStart_cons_solid hi, ← toList_ifLine,
    toList_ifLine_concat, Text.trimEnd_append_solid hn]

theorem trim_ifLine (C : String) : Line.trim (ifLine C) = ifLine C := by
  rw [Line.trim, text_trim_ifLine, String.ofList_toList]

theorem ofLine_ifLine (C : String) : LineClass.ofLine (ifLine C).toList = .branch := by
  have hline : (ifLine C).toList = "if".toList ++ ' ' :: (C.toList ++ " then".toList) := by
    rw [toList_ifLine]
    rfl
  have hsolid : ∀ c ∈ "if".toList, Text.isBlank c = false := Text.solid_of_all (by decide +kernel)
  rw [hline, LineClass.ofLine_append hsolid (by decide)
    (Text.separated_cons Text.isBlank_space _)]
  decide +kernel

theorem headerName?_ifLine (C : String) : headerName? (ifLine C) = none := by
  have hrecognize : recognize (· = .header) (ifLine C) = none := by
    rw [recognize, text_trim_ifLine, ofLine_ifLine]
    rfl
  rw [headerName?, hrecognize]
  split <;> rfl

theorem newline_not_mem_ifLine {C : String} (hline : '\n' ∉ C.toList) :
    '\n' ∉ (ifLine C).toList := by
  rw [toList_ifLine]
  simp [hline]

/-- The condition is the text between `if` and `then`, trimmed. -/
theorem boundary?_ifLine {C : String} (hline : '\n' ∉ C.toList) (hword : Text.words C.toList ≠ []) :
    boundary? (ifLine C) = some (.branch .ifThen (Line.trim C)) := by
  rw [boundary?_iff_conditional (newline_not_mem_ifLine hline), text_trim_ifLine, Line.toList_trim]
  obtain ⟨c, rest, htext⟩ := List.exists_cons_of_ne_nil (Text.trimStart_ne_nil hword)
  have hc := Text.trimStart_head_solid htext
  obtain ⟨lead, hlead, hC⟩ := Text.exists_blanks_trimStart C.toList
  obtain ⟨trail, htrail, hstart⟩ := Text.exists_blanks_trimEnd (Text.trimStart C.toList)
  have hbehind : Pattern.Behind "if".toList (ifLine C).toList
      (Text.trimStart C.toList ++ ' ' :: "then".toList) := by
    refine ⟨' ' :: lead, ?_, List.cons_ne_nil _ _, ?_, by simp, ?_⟩
    · rw [toList_ifLine, List.append_assoc, List.cons_append, ← List.append_assoc lead, ← hC]
      rfl
    · exact List.forall_mem_cons.mpr ⟨Text.isBlank_space, hlead⟩
    · rw [htext, List.cons_append, Text.trimStart_cons_solid hc]
  have hsplit : Text.trimStart C.toList ++ ' ' :: "then".toList
      = Text.trim C.toList ++ (trail ++ [' ']) ++ "then".toList := by
    rw [Text.trim, ← List.append_assoc, ← hstart, List.append_assoc, List.singleton_append]
  refine ⟨_, hbehind, .dropped hsplit ?_ ?_ (by simp) ?_⟩
  · rw [Text.trim, htext, Text.trimEnd_cons_solid hc]
    exact List.cons_ne_nil _ _
  · rw [Text.trim, Text.trimEnd_trimEnd]
  · exact htrail.concat Text.isBlank_space

theorem ifLine_ne {C s : String} (h : s.toList.head? ≠ some 'i') : ifLine C ≠ s := by
  rintro rfl
  rw [toList_ifLine] at h
  exact h rfl

theorem isFiller_ifLine (C : String) : isFiller (ifLine C) = false := by
  have hhead : (ifLine C).toList.head? = some 'i' := by rw [toList_ifLine]; rfl
  have hempty : ifLine C ≠ "" := ifLine_ne (by decide)
  have hendif : ifLine C ≠ "endif" := ifLine_ne (by decide)
  rw [isFiller, hhead, decide_eq_false hempty, decide_eq_false hendif]
  decide

theorem ofText_guardedDrop {C : String} (hline : '\n' ∉ C.toList) :
    Line.ofText (Line.join (guardedDrop C)) = guardedDrop C := by
  have hjoin : (Line.join (guardedDrop C)).toList = (ifLine C).toList ++ '\n' :: "drop".toList := by
    rw [Line.join, String.toList_ofList]
    rfl
  have hlast : (ifLine C).toList.getLast? ≠ some '\r' := by
    rw [toList_ifLine_concat, List.getLast?_concat]
    decide
  have hdrop : Text.lines "drop".toList = ["drop".toList] := by decide
  rw [Line.ofText, hjoin, Text.lines_append_newline (newline_not_mem_ifLine hline),
    Text.dropReturn_eq_self hlast, hdrop]
  simp [guardedDrop]

theorem bodyLines_guardedDrop (name : String) {C : String} (hline : '\n' ∉ C.toList) :
    bodyLines name (Line.join (guardedDrop C)) = guardedDrop C := by
  have hheader : headerName? "drop" = none := by decide +kernel
  have htrim : Line.trim "drop" = "drop" := by decide +kernel
  have hend : ifLine C ≠ endLine := ifLine_ne (by decide)
  have hinside : (guardedDrop C).all (fun line => (headerName? line).isNone) = true := by
    simp [guardedDrop, headerName?_ifLine, hheader]
  rw [bodyLines, ofText_guardedDrop hline, hinside, guardedDrop, bodyFrom]
  simp only [headerName?_ifLine, trim_ifLine, isFiller_ifLine, hend]
  rw [bodyFrom]
  simp only [hheader, htrim]
  rfl

def guardedBranch (C : String) : Branch :=
  { kind := .ifThen, line := ifLine C, condition := Line.trim C, statements := ["drop"] }

theorem ofLines_guardedDrop {C : String} (hline : '\n' ∉ C.toList)
    (hword : Text.words C.toList ≠ []) :
    Scope.ofLines (guardedDrop C) = .last { branches := [guardedBranch C] } := by
  have hdrop : Scope.ofLines ["drop"] = .last { globals := ["drop"] } := by decide +kernel
  rw [guardedDrop, Scope.ofLines_cons, hdrop, trim_ifLine, Scope.addLine,
    boundary?_ifLine hline hword]
  rfl

/-! ## One clause -/

/-- The key that a recognised clause stands under. -/
def clauseKey? (clause : String) : Option String :=
  (recognize (· = .condition) clause).map fun m => m.rule.leaf

/-- Every field that a line gives is a text that is not empty, or a truth value. -/
theorem Rule.filled_entries {rule : Rule} {cs : List Char} {m : Match}
    (h : rule.match? cs = some m) : ∀ e ∈ m.entries, e.2.Filled := by
  obtain ⟨caps, hcaps, rfl⟩ := Option.map_eq_some_iff.mp h
  intro e he
  obtain ⟨read, hread, hvalue⟩ := List.mem_filterMap.mp he
  obtain ⟨field, _, rfl⟩ := List.mem_map.mp hread
  obtain ⟨v, hv, rfl⟩ := Option.map_eq_some_iff.mp hvalue
  rcases Field.value?_read hv with ⟨s, _, hmem, rfl⟩ | ⟨b, _, rfl⟩
  · obtain ⟨form, _, haccepts⟩ := Pattern.accepts_of_captures hcaps _ hmem
    rintro rfl
    exact haccepts.ne_nil rfl
  · trivial

section
variable {clause : String} {m : Match} (hm : recognize (· = .condition) clause = some m)
include hm

theorem clauseValue?_of_recognize :
    clauseValue? clause = some (.dict [(m.rule.leaf, .dict m.entries)]) := by
  obtain ⟨rule, hrule, hclass, hmatch⟩ := exists_of_recognize_clause hm
  obtain ⟨head, operands, fields, hparents, _, hshape⟩ :=
    Rule.isClause_eq_true (isClause_of_condition rule hrule hclass)
  obtain ⟨caps, _, rfl⟩ := Option.map_eq_some_iff.mp hmatch
  rw [clauseValue?, hm, Option.bind_some, Match.fragment, Match.leafValue?]
  simp only [hshape, hparents]
  rfl

/-- The check leaves a clause its key and all of its fields. -/
theorem validate_clause {path : Path} {w : Value}
    (hw : Schema.condition.validate path (.dict [(m.rule.leaf, .dict m.entries)]) = .ok w) :
    ∃ es, w = .dict [(m.rule.leaf, .dict es)] ∧ Value.pruneEntries es = es ∧
      es.length = m.entries.length := by
  obtain ⟨fields, ws, _, hws, rfl⟩ := Schema.validate_dict_ok hw
  obtain ⟨schema, v, rest, _, hv, hrest, rfl⟩ := Schema.validateEntries_cons_ok hws
  obtain ⟨declared, es, _, hes, rfl⟩ := Schema.validate_dict_ok hv
  obtain ⟨rule, _, _, hmatch⟩ := exists_of_recognize_clause hm
  obtain ⟨hprune, hlength⟩ := Value.pruneEntries_validateEntries (Rule.filled_entries hmatch) hes
  rw [Schema.validateEntries] at hrest
  exact ⟨es, by rw [← Except.ok.inj hrest], hprune, hlength⟩

/-- A clause that is bare is pruned away; any other stays, with its key. -/
theorem prune?_clause (hspaced : Text.Spaced clause.toList) {path : Path} {w : Value}
    (hw : Schema.condition.validate path (.dict [(m.rule.leaf, .dict m.entries)]) = .ok w) :
    w.keys = [m.rule.leaf] ∧ w.prune? = if clause ∈ bareClauses then none else some w := by
  obtain ⟨es, rfl, hprune, hlength⟩ := validate_clause hm hw
  have hbare : clause ∈ bareClauses ↔ es = [] := by
    rw [← silent_iff_bare hspaced, silent_of_recognize hm, List.isEmpty_iff_length_eq_zero,
      ← hlength, List.length_eq_zero_iff]
  refine ⟨rfl, ?_⟩
  by_cases hes : es = []
  · rw [if_pos (hbare.mpr hes), hes]
    rfl
  · rw [if_neg (fun h => hes (hbare.mp h))]
    have hinner : (Value.dict es).prune? = some (.dict es) := by
      rw [Value.prune?_dict (by rwa [hprune]), hprune]
    have houter : Value.pruneEntries [(m.rule.leaf, .dict es)] = [(m.rule.leaf, .dict es)] := by
      rw [Value.pruneEntries_cons, hinner, Value.pruneEntries]
      rfl
    rw [Value.prune?_dict (by rw [houter]; simp), houter]

end

/-! ## All clauses of a condition -/

/-- Of recognised clauses, those that are not bare are left, each under its key and in order. -/
theorem keys_pruneItems {clauses : List String}
    (hspaced : ∀ clause ∈ clauses, Text.Spaced clause.toList)
    (hrecognized : ∀ clause ∈ clauses, (recognize (· = .condition) clause).isSome = true)
    {path : Path} {i : Nat} {ws : List Value}
    (h : Schema.validateItems .condition path i (clauses.filterMap clauseValue?) = .ok ws) :
    (Value.pruneItems ws).map Value.keys
      = (clauses.filter (· ∉ bareClauses)).map fun clause => (clauseKey? clause).toList := by
  induction clauses generalizing i ws with
  | nil =>
    rw [List.filterMap_nil, Schema.validateItems] at h
    rw [← Except.ok.inj h, Value.pruneItems]
    rfl
  | cons clause more ih =>
    obtain ⟨m, hm⟩ := Option.isSome_iff_exists.mp (hrecognized clause List.mem_cons_self)
    rw [List.filterMap_cons_some (clauseValue?_of_recognize hm)] at h
    obtain ⟨w, rest, hw, hrest, rfl⟩ := Schema.validateItems_cons_ok h
    have hmore := ih (fun c hc => hspaced c (List.mem_cons_of_mem _ hc))
      (fun c hc => hrecognized c (List.mem_cons_of_mem _ hc)) hrest
    obtain ⟨hkeys, hprune⟩ := prune?_clause hm (hspaced clause List.mem_cons_self) hw
    have hkey : (clauseKey? clause).toList = [m.rule.leaf] := by
      rw [clauseKey?, hm]
      rfl
    rw [Value.pruneItems_cons, hprune, List.filter_cons]
    by_cases hbare : clause ∈ bareClauses
    · simp [hbare, hmore]
    · simp [hbare, hmore, hkeys, hkey]

/-! ## The facts of the policy -/

/-- The conditions of a block; a block without the key has none. -/
def blockConditions (block : Value) : List Value :=
  ((block.get? "conditions").bind Value.items?).getD []

/-- The conditions in the `if` block of a fact. -/
def ifConditions (fact : Value) : List Value :=
  ((fact.get? "if").map blockConditions).getD []

/-- A block of conditions and a `drop`. -/
def dropBlock (conditions : List Value) : List (String × Value) :=
  (if conditions = [] then [] else [("conditions", .list conditions)]) ++ [("drop", .bool true)]

theorem blockConditions_dropBlock (conditions : List Value) :
    blockConditions (.dict (dropBlock conditions)) = conditions := by
  by_cases h : conditions = []
  · rw [dropBlock, if_pos h, h]
    rfl
  · rw [dropBlock, if_neg h]
    rfl

theorem block_drop {b : Branch} (h : b.statements = ["drop"]) :
    b.block = dropBlock b.conditions := by
  have hdrop : foldStatements ["drop"] = [("drop", .bool true)] := by decide +kernel
  rw [Branch.block, h, hdrop, dropBlock]
  by_cases hconditions : b.conditions = []
  · rw [if_pos hconditions]
    rfl
  · rw [if_neg hconditions]
    rfl

theorem dropBlock_ne_nil (conditions : List Value) : dropBlock conditions ≠ [] :=
  List.append_ne_nil_of_right_ne_nil _ (by simp)

theorem validate_drop {fields : List (String × Schema)} {path : Path} {ws : List (String × Value)}
    (h : Schema.validateEntries fields path [("drop", .bool true)] = .ok ws) :
    ws = [("drop", .bool true)] := by
  obtain ⟨schema, w, rest, _, hw, hrest, rfl⟩ := Schema.validateEntries_cons_ok h
  rw [Schema.validateEntries] at hrest
  rw [Schema.validate_bool_ok hw, ← Except.ok.inj hrest]

theorem pruneEntries_conditions (ws : List Value) :
    Value.pruneEntries [("conditions", .list ws), ("drop", .bool true)]
      = dropBlock (Value.pruneItems ws) := by
  rw [Value.pruneEntries_cons, Value.prune?, dropBlock]
  cases Value.pruneItems ws <;> rfl

/-- Checking and pruning such a block checks and prunes its conditions. -/
theorem prune?_dropBlock {conditions : List Value} {path : Path} {w : Value}
    (h : Schema.block.validate path (.dict (dropBlock conditions)) = .ok w) :
    ∃ below ws, Schema.validateItems .condition below 0 conditions = .ok ws ∧
      w.prune? = some (.dict (dropBlock (Value.pruneItems ws))) := by
  obtain ⟨fields, es, hfields, hes, rfl⟩ := Schema.validate_dict_ok h
  rw [dropBlock] at hes
  by_cases hconditions : conditions = []
  · rw [if_pos hconditions] at hes
    refine ⟨path, [], by rw [hconditions, Schema.validateItems], ?_⟩
    rw [validate_drop hes]
    rfl
  · rw [if_neg hconditions] at hes
    obtain ⟨schema, v, rest, hschema, hv, hrest, rfl⟩ := Schema.validateEntries_cons_ok hes
    obtain ⟨item, ws, hitem, hws, rfl⟩ := Schema.validate_list_ok hv
    -- the schema of a block says what its conditions are
    obtain rfl := Option.some.inj hfields
    obtain rfl := Option.some.inj hschema
    obtain rfl := Option.some.inj hitem
    refine ⟨_, ws, hws, ?_⟩
    rw [validate_drop hrest, Value.prune?_dict, pruneEntries_conditions]
    rw [pruneEntries_conditions]
    exact dropBlock_ne_nil _

theorem validate_policy_ok {name : String} {block : List (String × Value)} {path : Path} {w : Value}
    (h : Schema.routeMap.validate path (.dict [("name", .str name), ("if", .dict block)]) = .ok w) :
    ∃ v u below, w = .dict [("name", v), ("if", u)] ∧
      Schema.block.validate below (.dict block) = .ok u := by
  obtain ⟨fields, es, hfields, hes, rfl⟩ := Schema.validate_dict_ok h
  obtain ⟨_, v, tail, _, _, htail, rfl⟩ := Schema.validateEntries_cons_ok hes
  obtain ⟨schema, u, last, hschema, hu, hlast, rfl⟩ := Schema.validateEntries_cons_ok htail
  rw [Schema.validateEntries] at hlast
  obtain rfl := Except.ok.inj hlast
  obtain rfl := Option.some.inj hfields
  obtain rfl := Option.some.inj hschema
  exact ⟨v, u, _, rfl, hu⟩

/-- A name may be pruned away; the block under `if` is found all the same. -/
theorem prune?_policy {v u block : Value} (h : u.prune? = some block) :
    ∃ fact, (Value.dict [("name", v), ("if", u)]).prune? = some fact ∧
      fact.get? "if" = some block := by
  have hentries : Value.pruneEntries [("name", v), ("if", u)]
      = (v.prune?.map ("name", ·)).toList ++ [("if", block)] := by
    rw [Value.pruneEntries_cons, Value.pruneEntries_cons, h, Value.pruneEntries]
    rfl
  refine ⟨_, Value.prune?_dict (by rw [hentries]; simp), ?_⟩
  rw [hentries]
  cases v.prune? <;> rfl

theorem finish_dropBlock {name : String} {conditions facts : List Value}
    (h : finish [[("name", .str name), ("if", .dict (dropBlock conditions))]] = .ok facts) :
    ∃ fact path ws, facts = [fact] ∧
      Schema.validateItems .condition path 0 conditions = .ok ws ∧
      ifConditions fact = Value.pruneItems ws := by
  rw [finish_eq] at h
  split at h
  · cases h
  · rename_i values hvalues
    obtain ⟨w, rest, hw, hrest, rfl⟩ := Schema.validateItems_cons_ok hvalues
    rw [List.map_nil, Schema.validateItems] at hrest
    obtain rfl := Except.ok.inj hrest
    obtain ⟨v, u, below, rfl, hblock⟩ := validate_policy_ok hw
    obtain ⟨path, ws, hws, hprune⟩ := prune?_dropBlock hblock
    obtain ⟨fact, hfact, hif⟩ := prune?_policy (v := v) hprune
    refine ⟨fact, path, ws, ?_, hws, ?_⟩
    · rw [Value.pruneItems_cons, hfact, Value.pruneItems] at h
      exact (Except.ok.inj h).symm
    · rw [ifConditions, hif, Option.map_some, blockConditions_dropBlock]
      rfl

/-! ## The policy as a whole -/

theorem trace_guardedDrop (name : String) {C : String} (hline : '\n' ∉ C.toList)
    (hword : Text.words C.toList ≠ []) :
    trace false name (Line.join (guardedDrop C)) = .ok
      { name
        scope := .last { branches := [guardedBranch C] }
        document := [("name", .str name), ("if", .dict (dropBlock (guardedBranch C).conditions))]
        tally := .ofScope 2 (.last { branches := [guardedBranch C] }) } := by
  have hdocument : document name (.last { branches := [guardedBranch C] })
      = [("name", .str name), ("if", .dict (dropBlock (guardedBranch C).conditions))] := by
    rw [← block_drop rfl]
    rfl
  simp only [trace, bodyLines_guardedDrop name hline, segment_lenient,
    ofLines_guardedDrop hline hword, hdocument]
  rfl

theorem missed?_ofText (allowed : LineClass → Bool) (text : String) :
    (Event.ofText allowed text).missed?
      = if (recognize allowed text).isSome then none else some text := by
  rw [Event.ofText]
  cases recognize allowed text <;> rfl

theorem clauses_recognized {s : Scope} {lines : Nat} (h : (Tally.ofScope lines s).incomplete = [])
    {b : Branch} (hb : b ∈ s.allBranches) :
    ∀ clause ∈ b.clauses, (recognize (· = .condition) clause).isSome = true := by
  have hnone : (s.allBranches.filter Branch.isIncomplete).map Branch.line = [] := by
    cases hlines : (s.allBranches.filter Branch.isIncomplete).map Branch.line with
    | nil => rfl
    | cons line more =>
      simp only [Tally.ofScope, hlines, List.eraseDups_cons] at h
      exact absurd h (by simp)
  have hcomplete : b.isIncomplete = false := by
    have hfilter := List.filter_eq_nil_iff.mp (List.map_eq_nil_iff.mp hnone) b hb
    simpa using hfilter
  intro clause hclause
  have hevent := List.any_eq_false.mp hcomplete _ (List.mem_map_of_mem hclause)
  rw [missed?_ofText] at hevent
  split at hevent
  · assumption
  · simp at hevent

/-- **A condition is lost exactly where a clause is bare.**  When no branch of the policy is
reported as incomplete, the conditions in its facts are those of the clauses that are not bare, each
under the key of its rule, in order.  So there is one for every clause exactly when no clause is
bare. -/
theorem conditions_of_guardedDrop {name C : String} (hline : '\n' ∉ C.toList)
    (hword : Text.words C.toList ≠ []) {t : Trace}
    (ht : trace false name (Line.join (guardedDrop C)) = .ok t)
    (hcomplete : t.tally.incomplete = []) {facts : List Value}
    (hfacts : finish [t.document] = .ok facts) :
    ∃ b fact, t.scope.ifBranch? = some b ∧ b.condition = Line.trim C ∧ facts = [fact] ∧
      (ifConditions fact).map Value.keys
        = (b.clauses.filter (· ∉ bareClauses)).map (fun clause => (clauseKey? clause).toList) ∧
      ((ifConditions fact).length = b.clauses.length ↔
        ∀ clause ∈ b.clauses, clause ∉ bareClauses) := by
  rw [trace_guardedDrop name hline hword] at ht
  obtain rfl := Except.ok.inj ht
  obtain ⟨fact, path, ws, rfl, hws, hfact⟩ := finish_dropBlock hfacts
  have hmem : guardedBranch C ∈ (Scope.last { branches := [guardedBranch C] }).allBranches :=
    List.mem_singleton_self _
  have hkeys : (ifConditions fact).map Value.keys
      = ((guardedBranch C).clauses.filter (· ∉ bareClauses)).map
        fun clause => (clauseKey? clause).toList := by
    rw [hfact]
    exact keys_pruneItems (fun clause h => spaced_clauses h) (clauses_recognized hcomplete hmem) hws
  refine ⟨guardedBranch C, fact, rfl, rfl, rfl, hkeys, ?_⟩
  have hlength := congrArg List.length hkeys
  rw [List.length_map, List.length_map] at hlength
  rw [hlength, List.length_filter_eq_length_iff]
  simp

/-- A condition of three clauses, the last one bare. -/
def bareBehindGroup : String := "(med eq 10 or community) and  origin is"

theorem conditions_of_bareBehindGroup :
    ∃ t facts, trace false "P" (Line.join (guardedDrop bareBehindGroup)) = .ok t ∧
      t.tally.incomplete = [] ∧ finish [t.document] = .ok facts ∧
      ∃ b fact, t.scope.ifBranch? = some b ∧ b.condition = Line.trim bareBehindGroup ∧
        facts = [fact] ∧
        (ifConditions fact).map Value.keys
          = (b.clauses.filter (· ∉ bareClauses)).map (fun clause => (clauseKey? clause).toList) ∧
        ((ifConditions fact).length = b.clauses.length ↔
          ∀ clause ∈ b.clauses, clause ∉ bareClauses) := by
  have hline : '\n' ∉ bareBehindGroup.toList := by decide +kernel
  have hword : Text.words bareBehindGroup.toList ≠ [] := by decide +kernel
  have htrace := trace_guardedDrop "P" hline hword
  have hcomplete : (Tally.ofScope 2 (.last
      { branches := [guardedBranch bareBehindGroup] })).incomplete = [] := by
    decide +kernel
  have hfacts : finish [[("name", .str "P"),
        ("if", .dict (dropBlock (guardedBranch bareBehindGroup).conditions))]]
      = .ok [.dict [("name", .str "P"), ("if", .dict (dropBlock
        [.dict [("med", .dict [("match", .str "eq"), ("input_number", .num (.int 10)),
          ("combine_condition", .str "or")])],
        .dict [("community", .dict [("combine_condition", .str "and")])]]))]] :=
    ok_of_toOption (by decide +kernel)
  exact ⟨_, _, htrace, hcomplete, hfacts,
    conditions_of_guardedDrop hline hword htrace hcomplete hfacts⟩

/-- With one bare clause the policy drops unconditionally, and no branch is incomplete. -/
theorem condition_lost_community :
    ∃ t, trace false "P" (Line.join (guardedDrop "community")) = .ok t ∧
      t.tally.incomplete = [] ∧ t.scope.ifBranch?.map Branch.clauses = some ["community"] ∧
      finish [t.document]
        = .ok [.dict [("name", .str "P"), ("if", .dict [("drop", .bool true)])]] :=
  ⟨_, rfl, by decide +kernel, by decide +kernel, ok_of_toOption (by decide +kernel)⟩

end RoutePolicy
