import RoutePolicy.Proofs.Merging

/-!
# The last write wins

A block of statements is the merge of what its lines contribute.  Read at one path of keys, that is
a simple rule: the path is there if a line has it, and a leaf holds what the last such line wrote.

* `foldStatements_eq_foldl`   the block as a run of merges over the fragments of the lines;
* `at?_foldl_mergeValue`      at a path, the run merges what the fragments hold there (`mergeAll`);
* `keysAt_foldl_mergeValue`   the keys at a path stand in the order of their first write;
* `foldStatements_append`     the blocks of two parts of a body merge to the block of the whole.

That the rule holds rests on the catalog: the fragments of all statement lines are drafts of one
schema, and no rule writes a key twice (`fragment_suits`).
-/

namespace RoutePolicy

open Value

/-! ## What lines contribute -/

/-- What the recognised lines contribute, in order. -/
def fragments (lines : List String) : List Value :=
  lines.filterMap fun line => (recognize LineClass.isStatement line).map fun m => .dict m.fragment

/-- The items of the `apply` lines, in order. -/
def applied (lines : List String) : List Value :=
  lines.filterMap fun line => (recognize LineClass.isStatement line).bind fun m =>
    if m.rule.name = "apply" then some (.dict m.entries) else none

theorem foldStatements_eq_foldl (lines : List String) :
    Value.dict (foldStatements lines) = (fragments lines).foldl mergeValue (.dict []) := by
  unfold foldStatements
  generalize ([] : List (String × Value)) = acc
  induction lines generalizing acc with
  | nil => rfl
  | cons line lines ih =>
    rw [List.foldl_cons, ih, fragments, fragments, List.filterMap_cons]
    cases recognize LineClass.isStatement line with
    | none => rfl
    | some m =>
      show _ = List.foldl mergeValue (mergeValue (.dict acc) (.dict m.fragment)) _
      rw [mergeValue_dict]

/-! ## Fragments are drafts with distinct keys -/

theorem catalog_keys : ∀ rule ∈ catalog, (rule.fields.map Field.key).Nodup := by
  decide +kernel

theorem keys_entries_sublist (m : Match) :
    (Entries.keys m.entries).Sublist (m.fields.map Prod.fst) := by
  unfold Match.entries
  induction m.fields with
  | nil => exact List.Sublist.refl _
  | cons field fields ih =>
    cases hvalue : field.2.value? with
    | none =>
      rw [List.filterMap_cons_none (by rw [hvalue]; rfl)]
      exact ih.cons _
    | some v =>
      rw [List.filterMap_cons_some (by rw [hvalue]; rfl)]
      exact ih.cons_cons field.1

theorem FieldValue.entries?_value {value : FieldValue} {v : Value} (h : value.value? = some v) :
    v.entries? = none := by
  cases value with
  | text s => exact Option.some.inj h ▸ rfl
  | flag b => exact Option.some.inj h ▸ rfl
  | absent => cases h

theorem distinct_entries {m : Match} (h : (m.fields.map Prod.fst).Nodup) :
    (Value.dict m.entries).Distinct := by
  refine .dict (h.sublist (keys_entries_sublist m)) fun e he => .of_leaf ?_
  obtain ⟨field, _, hvalue⟩ := List.mem_filterMap.mp he
  obtain ⟨v, hv, rfl⟩ := Option.map_eq_some_iff.mp hvalue
  exact FieldValue.entries?_value hv

theorem distinct_leafValue {m : Match} (h : (m.fields.map Prod.fst).Nodup) {v : Value}
    (hv : m.leafValue? = some v) : v.Distinct := by
  unfold Match.leafValue? at hv
  split at hv
  · obtain ⟨field, _, hvalue⟩ := Option.bind_eq_some_iff.mp hv
    exact .of_leaf (FieldValue.entries?_value hvalue)
  · exact Option.some.inj hv ▸ distinct_entries h
  · exact Option.some.inj hv ▸ .of_leaf rfl

theorem distinct_fragment {m : Match} (h : (m.fields.map Prod.fst).Nodup) :
    (Value.dict m.fragment).Distinct := by
  have hsingle : ∀ {v : Value} (key : String), v.Distinct → (Value.dict [(key, v)]).Distinct := by
    intro v key hv
    refine .dict (List.nodup_singleton key) fun e he => ?_
    rw [List.mem_singleton.mp he]
    exact hv
  unfold Match.fragment
  split
  · exact .dict List.nodup_nil fun e he => absurd he (by simp)
  · rename_i v hv
    induction m.rule.parents with
    | nil => exact hsingle _ (distinct_leafValue h hv)
    | cons key parents ih => exact hsingle key ih

/-- What a statement line contributes suits the schema and has no key twice. -/
theorem fragment_suits {lines : List String} : ∀ fragment ∈ fragments lines,
    Draft (.dict Schema.statementFields) fragment ∧ fragment.Distinct := by
  intro fragment hfragment
  obtain ⟨line, _, hline⟩ := List.mem_filterMap.mp hfragment
  obtain ⟨m, hm, rfl⟩ := Option.map_eq_some_iff.mp hline
  obtain ⟨rule, hrule, hclass, hmatch⟩ := exists_of_recognize hm
  refine ⟨(draft_fragment (statements_suit rule hrule hclass) hmatch).draft rfl, ?_⟩
  apply distinct_fragment
  obtain ⟨caps, _, rfl⟩ := Option.map_eq_some_iff.mp hmatch
  rw [List.map_map]
  exact catalog_keys rule hrule

/-! ## Merging at one path -/

/-- What values merge to when they are written one after the other where nothing stood. -/
def mergeAll (vs : List Value) : Option Value :=
  vs.foldl (fun acc v => Option.merge mergeValue acc (some v)) none

theorem mergeAll_concat (vs : List Value) (v : Value) :
    mergeAll (vs ++ [v]) = Option.merge mergeValue (mergeAll vs) (some v) := by
  unfold mergeAll
  rw [List.foldl_concat]

theorem mergeAll_eq_none_iff {vs : List Value} : mergeAll vs = none ↔ vs = [] := by
  induction vs using List.reverseRecOn with
  | nil => exact ⟨fun _ => rfl, fun _ => rfl⟩
  | append_singleton vs v _ =>
    rw [mergeAll_concat]
    cases mergeAll vs <;> simp [Option.merge]

/-- A value that is neither a list nor a mapping. -/
def Value.IsScalar : Value → Prop
  | .list _ => False
  | .dict _ => False
  | _ => True

theorem mergeValue_eq_scalar_iff {old v w : Value} (h : v.IsScalar) :
    mergeValue old w = v ↔ w = v := by
  cases w with
  | list items =>
    cases v with
    | list _ => exact h.elim
    | _ => cases old <;> simp [mergeValue]
  | dict entries =>
    cases v with
    | dict _ => exact h.elim
    | _ => cases old <;> simp [mergeValue]
  | _ => simp only [mergeValue]

/-- A scalar is what was written last. -/
theorem mergeAll_eq_scalar_iff {vs : List Value} {v : Value} (h : v.IsScalar) :
    mergeAll vs = some v ↔ vs.getLast? = some v := by
  induction vs using List.reverseRecOn with
  | nil => exact Iff.rfl
  | append_singleton vs w _ =>
    rw [mergeAll_concat, List.getLast?_concat]
    cases mergeAll vs with
    | none => exact Iff.rfl
    | some old =>
      show some (mergeValue old w) = some v ↔ _
      rw [Option.some.injEq, Option.some.injEq, mergeValue_eq_scalar_iff h]

/-- Lists pile up. -/
theorem mergeAll_singletons (vs : List Value) :
    mergeAll (vs.map fun v => .list [v]) = if vs = [] then none else some (.list vs) := by
  induction vs using List.reverseRecOn with
  | nil => rfl
  | append_singleton vs v ih =>
    rw [List.map_append, List.map_singleton, mergeAll_concat, ih]
    by_cases hnil : vs = []
    · rw [hnil]
      rfl
    · rw [if_neg hnil, if_neg (by simp)]
      show some (mergeValue (.list vs) (.list [v])) = _
      rw [mergeValue_list]

section
variable {schema : Schema} {v : Value} {vs : List Value}

theorem draft_foldl_mergeValue (hv : Draft schema v) (hvs : ∀ w ∈ vs, Draft schema w) :
    Draft schema (vs.foldl mergeValue v) := by
  induction vs generalizing v with
  | nil => exact hv
  | cons w vs ih =>
    exact ih (draft_mergeValue hv w (hvs w List.mem_cons_self))
      fun u hu => hvs u (List.mem_cons_of_mem _ hu)

theorem at?_foldl_mergeValue (hv : Draft schema v)
    (hvs : ∀ w ∈ vs, Draft schema w ∧ w.Distinct) (path : List String) :
    (vs.foldl mergeValue v).at? path = mergeAll ((v :: vs).filterMap (at? path)) := by
  induction vs using List.reverseRecOn with
  | nil =>
    cases h : v.at? path <;> simp [h, mergeAll, Option.merge]
  | append_singleton vs w ih =>
    have hvs' : ∀ u ∈ vs, Draft schema u ∧ u.Distinct := fun u hu =>
      hvs u (List.mem_append_left _ hu)
    obtain ⟨hw, hdistinct⟩ := hvs w (by simp)
    have hrun := draft_foldl_mergeValue hv fun u hu => (hvs' u hu).1
    rw [List.foldl_concat, hrun.at?_mergeValue hw hdistinct, ih hvs', ← List.cons_append,
      List.filterMap_append]
    cases h : w.at? path with
    | none =>
      rw [List.filterMap_cons_none h, List.filterMap_nil, List.append_nil]
      cases mergeAll ((v :: vs).filterMap (at? path)) <;> rfl
    | some u =>
      rw [List.filterMap_cons_some h, List.filterMap_nil, mergeAll_concat]

end

/-! ## Keys at one path -/

/-- The keys of the mapping at a path; there are none where no mapping stands. -/
def Value.keysAt (path : List String) (v : Value) : List String :=
  ((v.at? path).map Value.keys).getD []

theorem Value.keysAt_cons {key : String} {path : List String} {v : Value} :
    v.keysAt (key :: path) = ((v.get? key).map (keysAt path)).getD [] := by
  unfold Value.keysAt
  rw [at?]
  cases v.get? key <;> rfl

theorem Value.keys_of_leaf {v : Value} (h : v.entries? = none) : v.keys = [] := by
  rw [Value.keys, h]
  rfl

theorem Value.Distinct.nodup_keysAt {v : Value} (h : v.Distinct) (path : List String) :
    (v.keysAt path).Nodup := by
  unfold Value.keysAt
  cases hat : v.at? path with
  | none => exact List.nodup_nil
  | some w =>
    cases w with
    | dict entries => exact h path entries hat
    | _ => exact List.nodup_nil

theorem FirstOrder.keysAt_mergeValue {schema : Schema} {x y : Value} {source : List String}
    (hx : Draft schema x) (hy : Draft schema y) (hdistinct : y.Distinct) (path : List String)
    (h : FirstOrder source (x.keysAt path)) :
    FirstOrder (source ++ y.keysAt path) ((mergeValue x y).keysAt path) := by
  induction path generalizing schema x y with
  | nil =>
    cases hfields : schema.fields? with
    | none =>
      have hkeys : ∀ {v : Value}, Draft schema v → v.keysAt [] = [] := fun hv =>
        keys_of_leaf (hv.entries?_eq_none hfields)
      rw [hkeys hy, hkeys (draft_mergeValue hx y hy), List.append_nil]
      rwa [hkeys hx] at h
    | some fields =>
      obtain ⟨a, rfl⟩ := hx.exists_dict hfields
      obtain ⟨b, rfl⟩ := hy.exists_dict hfields
      rw [mergeValue_dict]
      exact h.merge
  | cons key path ih =>
    simp only [keysAt_cons] at h ⊢
    cases hfields : schema.fields? with
    | none =>
      rw [hy.get?_eq_none hfields, (draft_mergeValue hx y hy).get?_eq_none hfields]
      rw [hx.get?_eq_none hfields] at h
      exact (List.append_nil source).symm ▸ h
    | some fields =>
      obtain ⟨a, rfl⟩ := hx.exists_dict hfields
      obtain ⟨b, rfl⟩ := hy.exists_dict hfields
      rw [mergeValue_dict, get?_dict, get?_dict, get?_merge key hdistinct.nodup]
      rw [get?_dict] at h
      cases ha : Entries.get? key a with
      | none =>
        -- nothing was written below this key yet
        rw [ha] at h
        have hsource : source = [] := List.eq_nil_iff_forall_not_mem.mpr fun k hk =>
          absurd ((h.mem k).mpr hk) (by simp)
        subst hsource
        cases hb : Entries.get? key b with
        | none => exact h
        | some w => exact .self ((hdistinct.get? hb).nodup_keysAt path)
      | some u =>
        rw [ha] at h
        cases hb : Entries.get? key b with
        | none => exact (List.append_nil source).symm ▸ h
        | some w =>
          obtain ⟨field, _, hu, hw⟩ := hx.get?_both hy hfields ha hb
          exact ih hu hw (hdistinct.get? hb) h

theorem keysAt_foldl_mergeValue {schema : Schema} {vs : List Value}
    (hv : Draft schema (.dict [])) (hvs : ∀ w ∈ vs, Draft schema w ∧ w.Distinct)
    (path : List String) :
    FirstOrder (vs.flatMap (keysAt path)) ((vs.foldl mergeValue (.dict [])).keysAt path) := by
  induction vs using List.reverseRecOn with
  | nil =>
    cases path with
    | nil => exact .nil
    | cons key path => exact .nil
  | append_singleton vs w ih =>
    have hvs' : ∀ u ∈ vs, Draft schema u ∧ u.Distinct := fun u hu =>
      hvs u (List.mem_append_left _ hu)
    obtain ⟨hw, hdistinct⟩ := hvs w (by simp)
    have hrun := draft_foldl_mergeValue hv fun u hu => (hvs' u hu).1
    rw [List.foldl_concat, List.flatMap_append, List.flatMap_singleton]
    exact .keysAt_mergeValue hrun hw hdistinct path (ih hvs')

/-! ## Blocks of statements -/

theorem draft_noStatements : Draft (.dict Schema.statementFields) (.dict []) :=
  DraftEntries.nil.draft rfl

theorem at?_foldStatements (lines : List String) {path : List String} (hpath : path ≠ []) :
    (Value.dict (foldStatements lines)).at? path
      = mergeAll ((fragments lines).filterMap (at? path)) := by
  obtain ⟨key, rest, rfl⟩ := List.exists_cons_of_ne_nil hpath
  rw [foldStatements_eq_foldl, at?_foldl_mergeValue draft_noStatements fragment_suits,
    List.filterMap_cons_none rfl]

theorem keysAt_foldStatements (lines : List String) (path : List String) :
    FirstOrder ((fragments lines).flatMap (keysAt path))
      ((Value.dict (foldStatements lines)).keysAt path) := by
  rw [foldStatements_eq_foldl]
  exact keysAt_foldl_mergeValue draft_noStatements fragment_suits path

theorem distinct_foldStatements (lines : List String) :
    (Value.dict (foldStatements lines)).Distinct := by
  intro path entries hentries
  have hkeys := (keysAt_foldStatements lines path).nodup
  rwa [Value.keysAt, hentries] at hkeys

theorem foldStatements_append (lines more : List String) :
    foldStatements (lines ++ more) = Value.merge (foldStatements lines) (foldStatements more) := by
  induction more using List.reverseRecOn with
  | nil => rw [List.append_nil, foldStatements_nil, merge_nil]
  | append_singleton more line ih =>
    have hconcat : ∀ before : List String, foldStatements (before ++ [line])
        = ((recognize LineClass.isStatement line).map fun m =>
            Value.merge (foldStatements before) m.fragment).getD (foldStatements before) := by
      intro before
      unfold foldStatements
      rw [List.foldl_concat]
      cases recognize LineClass.isStatement line <;> rfl
    rw [← List.append_assoc, hconcat, hconcat, ih]
    cases hm : recognize LineClass.isStatement line with
    | none => rfl
    | some m =>
      have hmem : Value.dict m.fragment ∈ fragments [line] := by
        rw [fragments, List.filterMap_cons_some (by rw [hm]; rfl)]
        exact List.mem_cons_self
      obtain ⟨hdraft, hdistinct⟩ := fragment_suits _ hmem
      have hassoc := hdraft.mergeValue_assoc
        ((draftEntries_foldStatements lines).draft rfl)
        ((draftEntries_foldStatements more).draft rfl)
        (distinct_foldStatements lines) (distinct_foldStatements more) hdistinct
      simp only [mergeValue_dict] at hassoc
      exact Value.dict.inj hassoc

/-! ## Applied policies -/

/-- whether only `apply` itself writes the key of its items -/
def Rule.keepsApply (rule : Rule) : Bool :=
  match rule.parents, rule.shape with
  | [], .item _ => rule.name = "apply" && rule.leaf = "apply"
  | parents, _ => rule.name ≠ "apply" && (parents ++ [rule.leaf]).head? ≠ some "apply"

theorem statements_keepApply : ∀ rule ∈ catalog, rule.lineClass.isStatement = true →
    rule.keepsApply = true := by
  decide +kernel

theorem get?_apply_fragment {line : String} {m : Match}
    (h : recognize LineClass.isStatement line = some m) :
    Entries.get? "apply" m.fragment
      = if m.rule.name = "apply" then some (.list [.dict m.entries]) else none := by
  obtain ⟨rule, hrule, hclass, hmatch⟩ := exists_of_recognize h
  obtain ⟨caps, _, rfl⟩ := Option.map_eq_some_iff.mp hmatch
  have hkeeps := statements_keepApply rule hrule hclass
  unfold Rule.keepsApply at hkeeps
  split at hkeeps
  · rename_i fields hparents hshape
    simp only [Bool.and_eq_true, decide_eq_true_eq] at hkeeps
    simp only [Match.fragment, Match.leafValue?, hparents, hshape, hkeeps, if_true]
    rfl
  · simp only [Bool.and_eq_true, decide_eq_true_eq] at hkeeps
    obtain ⟨hname, hhead⟩ := hkeeps
    rw [if_neg hname, Match.fragment]
    split
    · rfl
    · cases hparents : rule.parents with
      | nil =>
        rw [hparents] at hhead
        exact if_neg fun hleaf => hhead (congrArg some hleaf)
      | cons key parents =>
        rw [hparents] at hhead
        exact if_neg fun hkey => hhead (congrArg some hkey)

theorem filterMap_apply_fragments (lines : List String) :
    (fragments lines).filterMap (at? ["apply"]) = (applied lines).map fun v => .list [v] := by
  rw [fragments, applied, List.filterMap_filterMap, List.map_filterMap]
  congr 1
  funext line
  cases h : recognize LineClass.isStatement line with
  | none => rfl
  | some m =>
    show (Entries.get? "apply" m.fragment).bind some = _
    rw [get?_apply_fragment h]
    by_cases hname : m.rule.name = "apply" <;> simp [hname]

/-- **The last write wins.**  For every list of statement lines: a path of keys is in their block
exactly when some recognised line contributes it; a scalar stands at a path exactly when it is what
the last line with that path contributes there; `apply` holds the items of the `apply` lines, in line
order; at every path the keys stand in the order in which the lines first write them; and with
further lines behind them the block is the merge of the two blocks. -/
theorem foldStatements_lastWrite (lines : List String) :
    (∀ path, path ≠ [] →
      (((Value.dict (foldStatements lines)).at? path).isSome = true ↔
        ∃ fragment ∈ fragments lines, (fragment.at? path).isSome = true) ∧
      ∀ v, v.IsScalar → ((Value.dict (foldStatements lines)).at? path = some v ↔
        ((fragments lines).filterMap (at? path)).getLast? = some v)) ∧
    Entries.get? "apply" (foldStatements lines)
      = (if applied lines = [] then none else some (.list (applied lines))) ∧
    (∀ path, FirstOrder ((fragments lines).flatMap (keysAt path))
      ((Value.dict (foldStatements lines)).keysAt path)) ∧
    ∀ more, foldStatements (lines ++ more)
      = Value.merge (foldStatements lines) (foldStatements more) := by
  refine ⟨fun path hpath => ⟨?_, fun v hv => ?_⟩, ?_, keysAt_foldStatements lines,
    foldStatements_append lines⟩
  · rw [at?_foldStatements lines hpath, Option.isSome_iff_ne_none, ne_eq, mergeAll_eq_none_iff,
      List.filterMap_eq_nil_iff]
    simp only [not_forall, Option.isSome_iff_ne_none, exists_prop]
  · rw [at?_foldStatements lines hpath, mergeAll_eq_scalar_iff hv]
  · have hat := at?_foldStatements lines (List.cons_ne_nil "apply" [])
    rw [filterMap_apply_fragments, mergeAll_singletons] at hat
    rw [← hat]
    exact (Option.bind_fun_some _).symm

/-- Two settings of one attribute with another between them, `apply` twice, an option that only the
second line of its kind gives, and a line that no rule reads. -/
def mixedStatements : List String :=
  ["set weight 10", "apply A", "set aigp-metric igp-cost", "mystery", "set weight 20",
    "apply B (1)", "set aigp-metric + 5"]

theorem foldStatements_mixedStatements :
    (["set", "weight"] : List String) ≠ [] ∧ (Value.str "20").IsScalar ∧
    ((fragments mixedStatements).filterMap (at? ["set", "weight"])).getLast? = some (.str "20") ∧
    (Value.dict (foldStatements mixedStatements)).at? ["set", "weight"] = some (.str "20") ∧
    Entries.get? "apply" (foldStatements mixedStatements) = some (.list (applied mixedStatements)) ∧
    FirstOrder ["icrement", "decrement", "igp_cost", "icrement", "decrement", "metric_number",
        "igp_cost"]
      ((Value.dict (foldStatements mixedStatements)).keysAt ["set", "aigp_metric"]) := by
  have hpath : (["set", "weight"] : List String) ≠ [] := by simp
  have hlast : ((fragments mixedStatements).filterMap (at? ["set", "weight"])).getLast?
      = some (.str "20") := by
    decide +kernel
  have happlied : applied mixedStatements ≠ [] := by decide +kernel
  have hkeys : (fragments mixedStatements).flatMap (keysAt ["set", "aigp_metric"])
      = ["icrement", "decrement", "igp_cost", "icrement", "decrement", "metric_number",
        "igp_cost"] := by
    decide +kernel
  obtain ⟨hat, happly, horder, _⟩ := foldStatements_lastWrite mixedStatements
  rw [if_neg happlied] at happly
  exact ⟨hpath, trivial, hlast, ((hat _ hpath).2 (.str "20") trivial).mpr hlast, happly,
    hkeys ▸ horder _⟩

end RoutePolicy
