import RoutePolicy.Proofs.IntegerLeaf
import RoutePolicy.Proofs.RunningConfig
import RoutePolicy.Proofs.StrayBranch

/-!
# Messages in one line

A message quotes the text that was read: a body line, or the digits where the schema has an integer.
Neither holds a line feed, since lines are cut at line feeds and a line feed is no digit.  The place
of a fault is made of list positions and of keys that the schema declares, and every declared key is
one line.

* `oneLine_of_mem_bodyLines`    a body line is one line;
* `oneLine_integerLeaves`       so is the text of every place where the schema has an integer;
* `brief_of_configFacts`        what can go wrong with a configuration is told in one line.
-/

namespace RoutePolicy

/-! ## Texts -/

/-- A text without line feeds. -/
def OneLine (s : String) : Prop :=
  '\n' ∉ s.toList

instance (s : String) : Decidable (OneLine s) :=
  inferInstanceAs (Decidable ('\n' ∉ s.toList))

theorem OneLine.append {a b : String} (ha : OneLine a) (hb : OneLine b) : OneLine (a ++ b) := by
  intro h
  rw [String.toList_append] at h
  rcases List.mem_append.mp h with h | h
  · exact ha h
  · exact hb h

theorem oneLine_trim {line : String} (h : OneLine line) : OneLine (Line.trim line) := by
  intro hmem
  rw [Line.trim, String.toList_ofList] at hmem
  exact h (Text.mem_of_mem_trim hmem)

theorem oneLine_integerText (n : Int) : OneLine (integerText n) := by
  have hdigits : '\n' ∉ Nat.toDigits 10 n.natAbs := by
    intro h
    have hdigit := Nat.isDigit_of_mem_toDigits (by decide) (by decide) h
    exact absurd hdigit (by decide)
  rw [OneLine, integerText, String.toList_ofList]
  split
  · rw [List.mem_cons, not_or]
    exact ⟨by decide, hdigits⟩
  · exact hdigits

theorem oneLine_of_digits {s : String} (h : Form.number.Accepts s.toList) : OneLine s := by
  intro hmem
  have hfeed : Text.isDigit '\n' = false := by decide +kernel
  have hdigit := h.2 '\n' hmem
  rw [hfeed] at hdigit
  exact absurd hdigit (by simp)

/-! ## Body lines -/

theorem oneLine_of_mem_bodyLines {name text line : String} (h : line ∈ bodyLines name text) :
    OneLine line := by
  obtain ⟨raw, hraw, rfl⟩ := exists_of_mem_bodyFrom h
  exact oneLine_trim (Line.newline_not_mem_of_mem_ofText hraw)

/-! ## Places -/

theorem oneLine_stepText_index (i : Nat) : OneLine (Step.index i).text :=
  .append (.append (by decide) (oneLine_integerText i)) (by decide)

theorem oneLine_stepText_key {key : String} (h : OneLine key) : OneLine (Step.key key).text :=
  .append (by decide) h

theorem Path.text_concat (path : Path) (step : Step) :
    Path.text (path ++ [step]) = path.text ++ step.text := by
  rw [Path.text, List.foldl_append]
  rfl

namespace Schema

mutual
/-- Whether every declared key is one line; the fields of a scope are declared elsewhere. -/
def plain : Schema → Bool
  | .dict fields => plainFields fields
  | .list item => item.plain
  | .str => true
  | .int => true
  | .bool => true
  | .choice _ => true
  | .scope => true
/-- Whether the keys of fields, and all below them, are one line. -/
def plainFields : List (String × Schema) → Bool
  | [] => true
  | (key, schema) :: fields => decide (OneLine key) && schema.plain && plainFields fields
end

theorem plain_scopeFields : plainFields scopeFields = true := by
  decide +kernel

theorem plain_routeMap : routeMap.plain = true := by
  rw [routeMap, plain, plainFields, plain_scopeFields, plain]
  decide

theorem plain_of_item? {schema item : Schema} (h : schema.plain = true)
    (hitem : schema.item? = some item) : item.plain = true := by
  cases schema with
  | list other =>
    obtain rfl := Option.some.inj hitem
    rwa [plain] at h
  | _ => cases hitem

theorem plain_of_fields? {schema : Schema} {fields : List (String × Schema)}
    (h : schema.plain = true) (hfields : schema.fields? = some fields) :
    plainFields fields = true := by
  cases schema with
  | dict others =>
    obtain rfl := Option.some.inj hfields
    rwa [plain] at h
  | scope =>
    obtain rfl := Option.some.inj hfields
    exact plain_scopeFields
  | _ => cases hfields

theorem plain_of_get? {fields : List (String × Schema)} {key : String} {schema : Schema}
    (h : plainFields fields = true) (hget : Entries.get? key fields = some schema) :
    OneLine key ∧ schema.plain = true := by
  induction fields with
  | nil => cases hget
  | cons field fields ih =>
    obtain ⟨other, declared⟩ := field
    rw [plainFields, Bool.and_eq_true, Bool.and_eq_true, decide_eq_true_eq] at h
    rw [Entries.get?] at hget
    split at hget
    · rename_i heq
      obtain rfl := Option.some.inj hget
      exact ⟨heq ▸ h.1.1, h.1.2⟩
    · exact ih h.2 hget

theorem oneLine_ownInteger {schema : Schema} {path : Path} {v : Value} {leaf : Path × Value}
    (hpath : OneLine path.text) (h : leaf ∈ schema.ownInteger path v) : OneLine leaf.1.text := by
  cases schema with
  | int =>
    obtain rfl := List.mem_singleton.mp h
    exact hpath
  | _ => cases h

-- the path grows by declared keys only, so the three functions keep its text in one line
mutual
theorem oneLine_integerLeaves {schema : Schema} {path : Path} {leaf : Path × Value}
    (hplain : schema.plain = true) (hpath : OneLine path.text) :
    ∀ v : Value, leaf ∈ schema.integerLeaves path v → OneLine leaf.1.text
  | .list items => by
    rw [integerLeaves]
    split
    · rename_i item hitem
      exact oneLine_integerItems (plain_of_item? hplain hitem) hpath 0 items
    · exact fun h => by cases h
  | .dict entries => by
    rw [integerLeaves]
    split
    · rename_i fields hfields
      exact oneLine_integerEntries (plain_of_fields? hplain hfields) hpath entries
    · exact fun h => by cases h
  | .null => oneLine_ownInteger hpath
  | .bool _ => oneLine_ownInteger hpath
  | .num _ => oneLine_ownInteger hpath
  | .str _ => oneLine_ownInteger hpath
theorem oneLine_integerItems {item : Schema} {path : Path} {leaf : Path × Value}
    (hplain : item.plain = true) (hpath : OneLine path.text) (i : Nat) :
    ∀ items : List Value, leaf ∈ integerItems item path i items → OneLine leaf.1.text
  | [] => fun h => by cases h
  | v :: vs => fun h => by
    rw [integerItems, List.mem_append] at h
    rcases h with h | h
    · have hstep : OneLine (Path.text (path ++ [.index i])) := by
        rw [Path.text_concat]
        exact hpath.append (oneLine_stepText_index i)
      exact oneLine_integerLeaves hplain hstep v h
    · exact oneLine_integerItems hplain hpath (i + 1) vs h
theorem oneLine_integerEntries {fields : List (String × Schema)} {path : Path}
    {leaf : Path × Value} (hplain : plainFields fields = true) (hpath : OneLine path.text) :
    ∀ entries : List (String × Value), leaf ∈ integerEntries fields path entries →
      OneLine leaf.1.text
  | [] => fun h => by cases h
  | (key, v) :: es => fun h => by
    rw [integerEntries, List.mem_append] at h
    rcases h with h | h
    · split at h
      · rename_i schema hget
        obtain ⟨hkey, hschema⟩ := plain_of_get? hplain hget
        have hstep : OneLine (Path.text (path ++ [.key key])) := by
          rw [Path.text_concat]
          exact hpath.append (oneLine_stepText_key hkey)
        exact oneLine_integerLeaves hschema hstep v h
      · cases h
    · exact oneLine_integerEntries hplain hpath es h
end

end Schema

/-! ## Errors -/

/-- An error that is told in one line, with nothing behind it. -/
structure Error.Brief (e : Error) : Prop where
  oneLine : OneLine e.message
  noCause : e.cause? = none

theorem brief_strayBranch {stray : StrayBranch} (h : OneLine stray.text) :
    (Error.strayBranch stray).Brief := by
  have hnumber := oneLine_integerText stray.number
  refine ⟨?_, rfl⟩
  exact .append (.append (.append (.append (by decide) hnumber) (by decide)) h) (by decide)

theorem brief_invalidInteger {path : Path} {s : String} (hpath : OneLine path.text)
    (hs : OneLine s) : (Error.invalid (.invalidType path .integer (.str s))).Brief := by
  have hplace : OneLine ("'" ++ path.text ++ "' must be " ++ Expectation.integer.words) :=
    .append (.append (.append (by decide) hpath) (by decide)) (by decide)
  have hfound : OneLine (Fault.describe (.str s)) := .append (.append (by decide) hs) (by decide)
  exact ⟨.append (.append hplace (by decide)) hfound, rfl⟩

/-- Reading a policy fails at the first stray line of its body, under the strict reading only. -/
theorem trace_eq_error_iff {strict : Bool} {name text : String} {e : Error} :
    trace strict name text = .error e ↔ strict = true ∧
      ∃ stray, firstStray false 1 (bodyLines name text) = some stray ∧ e = .strayBranch stray := by
  cases strict with
  | false => simp [trace, segment_lenient]
  | true =>
    cases hstray : firstStray false 1 (bodyLines name text) with
    | none => simp [trace, segment_strict_of_none hstray]
    | some stray => simp [trace, segment_strict_eq_error_iff.mpr hstray, eq_comm]

theorem brief_of_trace {strict : Bool} {name text : String} {e : Error}
    (h : trace strict name text = .error e) : e.Brief := by
  obtain ⟨_, stray, hstray, rfl⟩ := trace_eq_error_iff.mp h
  obtain ⟨⟨before, line, after, hlines, rfl, _, _⟩, _⟩ := firstStray_eq_some_iff.mp hstray
  have hline : line ∈ bodyLines name text := by
    rw [hlines]
    exact List.mem_append_right _ List.mem_cons_self
  exact brief_strayBranch (oneLine_trim (oneLine_of_mem_bodyLines hline))

theorem brief_of_configTraces {strict : Bool} {config : String} {e : Error}
    (h : configTraces strict config = .error e) : e.Brief := by
  rw [configTraces_eq] at h
  obtain ⟨name, _, hname⟩ := mapM_error h
  exact brief_of_trace hname

theorem brief_of_factsOf {traces : List Trace} {e : Error}
    (hdocuments : ∀ t ∈ traces, t.document = document t.name t.scope)
    (h : factsOf traces = .error e) : e.Brief := by
  have hchecked : ∀ v ∈ (traces.map Trace.document).map Value.dict, Checked .routeMap v := by
    intro v hv
    obtain ⟨d, hd, rfl⟩ := List.mem_map.mp hv
    obtain ⟨t, ht, rfl⟩ := List.mem_map.mp hd
    rw [hdocuments t ht]
    exact (draft_document t.name t.scope).checked
  have hreads := Checked.items hchecked [] 0
  rw [factsOf, finish_eq] at h
  split at h
  · rename_i fault hfault
    obtain rfl := Except.error.inj h
    rw [hfault] at hreads
    obtain ⟨path, s, rfl, hmem, hdigits, _⟩ := hreads
    have hroot : OneLine (Path.text []) := by decide
    have hpath := Schema.oneLine_integerItems Schema.plain_routeMap hroot 0 _ hmem
    exact brief_invalidInteger hpath (oneLine_of_digits hdigits)
  · cases h

theorem brief_of_configFacts {strict : Bool} {config : String} {e : Error}
    (h : configFacts strict config = .error e) : e.Brief := by
  rw [configFacts_eq] at h
  cases htraces : configTraces strict config with
  | error e' =>
    rw [htraces] at h
    obtain rfl := Except.error.inj h
    exact brief_of_configTraces htraces
  | ok traces =>
    rw [htraces] at h
    rw [configTraces_eq] at htraces
    exact brief_of_factsOf (traces_ok htraces).2 h

end RoutePolicy
