import RoutePolicy.Proofs.Captured
import RoutePolicy.Proofs.Dispatch
import RoutePolicy.Document.Resolve
import RoutePolicy.Schema.Validate

/-!
# Documents are drafts of the schema

The rules and the schema are two tables.  `Draft schema v` says what a value has to be like for the
two to agree: declared keys only, listed words where the schema lists words, truth values where it
has truth values, and where it has an integer the digits that stand for one.

* `statements_suit`, `conditions_suit`   every rule agrees with the schema at its path, found by
                       evaluation;
* `draft_fragment`     so what a rule leaves of a line is a draft;
* `draftEntries_merge` drafts merge to drafts;
* `draft_document`     so every document is a draft of a route map.
-/

namespace RoutePolicy

/-! ## Drafts -/

/-- A value of a schema before its integers are read. -/
inductive Draft : Schema → Value → Prop where
  /-- any text -/
  | str (s : String) : Draft .str (.str s)
  /-- digits for an integer -/
  | int {s : String} : Form.number.Accepts s.toList → Draft .int (.str s)
  /-- a truth value -/
  | bool (b : Bool) : Draft .bool (.bool b)
  /-- a listed word -/
  | choice {choices : List String} {s : String} : s ∈ choices → Draft (.choice choices) (.str s)
  /-- a list of drafts -/
  | list {item : Schema} {items : List Value} :
      (∀ v ∈ items, Draft item v) → Draft (.list item) (.list items)
  /-- a mapping with declared keys and a draft at each -/
  | dict {schema : Schema} {fields : List (String × Schema)} {entries : List (String × Value)} :
      schema.fields? = some fields → (∀ e ∈ entries, (Entries.get? e.1 fields).isSome = true) →
      (∀ e ∈ entries, ∀ field, Entries.get? e.1 fields = some field → Draft field e.2) →
      Draft schema (.dict entries)

/-- The entries of a mapping, each a draft of its declared field. -/
def DraftEntries (fields : List (String × Schema)) (entries : List (String × Value)) : Prop :=
  ∀ e ∈ entries, ∃ schema, Entries.get? e.1 fields = some schema ∧ Draft schema e.2

theorem Draft.entries {schema : Schema} {fields : List (String × Schema)}
    {entries : List (String × Value)} (hfields : schema.fields? = some fields)
    (h : Draft schema (.dict entries)) : DraftEntries fields entries := by
  cases h with
  | dict hfields' hsome hdraft =>
    rw [hfields] at hfields'
    obtain rfl := Option.some.inj hfields'
    intro e he
    obtain ⟨field, hfield⟩ := Option.isSome_iff_exists.mp (hsome e he)
    exact ⟨field, hfield, hdraft e he field hfield⟩

theorem DraftEntries.draft {schema : Schema} {fields : List (String × Schema)}
    {entries : List (String × Value)} (hfields : schema.fields? = some fields)
    (h : DraftEntries fields entries) : Draft schema (.dict entries) := by
  refine .dict hfields (fun e he => ?_) (fun e he field hfield => ?_)
  · obtain ⟨_, hfield, _⟩ := h e he
    rw [hfield]; rfl
  · obtain ⟨field', hfield', hdraft⟩ := h e he
    rw [hfield] at hfield'
    exact Option.some.inj hfield' ▸ hdraft

theorem Draft.items {item : Schema} {items : List Value} (h : Draft (.list item) (.list items)) :
    ∀ v ∈ items, Draft item v := by
  cases h with
  | list h => exact h

/-- A draft where a mapping is declared is a mapping. -/
theorem Draft.exists_dict {schema : Schema} {fields : List (String × Schema)} {v : Value}
    (hfields : schema.fields? = some fields) (h : Draft schema v) : ∃ entries, v = .dict entries := by
  cases h with
  | dict _ _ _ => exact ⟨_, rfl⟩
  | _ => exact absurd hfields (by simp [Schema.fields?])

theorem Draft.exists_list {item : Schema} {v : Value} (h : Draft (.list item) v) :
    ∃ items, v = .list items := by
  cases h with
  | list _ => exact ⟨_, rfl⟩
  | dict hfields _ _ => exact absurd hfields (by simp [Schema.fields?])

namespace DraftEntries
variable {fields : List (String × Schema)} {a b : List (String × Value)}

theorem nil : DraftEntries fields [] :=
  fun _ he => absurd he (by simp)

theorem single {key : String} (schema : Schema) {v : Value}
    (hkey : Entries.get? key fields = some schema) (h : Draft schema v) :
    DraftEntries fields [(key, v)] := by
  intro e he
  rw [List.mem_singleton.mp he]
  exact ⟨schema, hkey, h⟩

theorem append (ha : DraftEntries fields a) (hb : DraftEntries fields b) :
    DraftEntries fields (a ++ b) := by
  intro e he
  rcases List.mem_append.mp he with he | he
  · exact ha e he
  · exact hb e he

/-- entries that declare less than another table can stand in it -/
theorem mono {more : List (String × Schema)}
    (hmore : ∀ key schema, Entries.get? key fields = some schema →
      Entries.get? key more = some schema) (h : DraftEntries fields a) : DraftEntries more a := by
  intro e he
  obtain ⟨schema, hschema, hdraft⟩ := h e he
  exact ⟨schema, hmore _ _ hschema, hdraft⟩

theorem insert {key : String} {schema : Schema} {v : Value} (h : DraftEntries fields a)
    (hkey : Entries.get? key fields = some schema) (hv : Draft schema v) :
    DraftEntries fields (Entries.insert key v a) := by
  induction a with
  | nil => exact single schema hkey hv
  | cons e rest ih =>
    obtain ⟨k, w⟩ := e
    have hrest : DraftEntries fields rest := fun e he => h e (List.mem_cons_of_mem _ he)
    rw [Entries.insert]
    split
    · rename_i hk
      intro e he
      rcases List.mem_cons.mp he with rfl | he
      · exact ⟨schema, by rw [hk]; exact hkey, hv⟩
      · exact hrest e he
    · intro e he
      rcases List.mem_cons.mp he with rfl | he
      · exact h _ List.mem_cons_self
      · exact ih hrest e he

end DraftEntries

/-! ## Merging -/

open Value in
mutual
theorem draft_mergeValue {schema : Schema} {old : Value} (hold : Draft schema old) :
    ∀ v : Value, Draft schema v → Draft schema (mergeValue old v)
  | .dict entries, hv => by
    obtain ⟨fields, hfields⟩ : ∃ fields, schema.fields? = some fields := by
      cases hv with
      | dict hfields _ _ => exact ⟨_, hfields⟩
    obtain ⟨acc, rfl⟩ := hold.exists_dict hfields
    rw [mergeValue]
    exact (draftEntries_merge entries (hold.entries hfields) (hv.entries hfields)).draft hfields
  | .list items, hv => by
    cases hv with
    | list hitems =>
      obtain ⟨acc, rfl⟩ := hold.exists_list
      rw [mergeValue]
      refine .list fun v hv => ?_
      rcases List.mem_append.mp hv with hv | hv
      · exact hold.items v hv
      · exact hitems v hv
  | .null, hv => hv
  | .bool _, hv => hv
  | .num _, hv => hv
  | .str _, hv => hv
theorem draftEntries_merge {fields : List (String × Schema)} {acc : List (String × Value)} :
    ∀ entries : List (String × Value), DraftEntries fields acc → DraftEntries fields entries →
      DraftEntries fields (merge acc entries)
  | [], hacc, _ => by rw [merge]; exact hacc
  | (key, v) :: rest, hacc, hentries => by
    obtain ⟨schema, hkey, hv⟩ := hentries _ List.mem_cons_self
    have hrest : DraftEntries fields rest := fun e he => hentries e (List.mem_cons_of_mem _ he)
    rw [merge]
    refine draftEntries_merge rest (hacc.insert hkey ?_) hrest
    split
    · rename_i old hold
      obtain ⟨schema', hkey', hdraft⟩ := hacc _ (Entries.mem_of_get? hold)
      rw [hkey] at hkey'
      obtain rfl := Option.some.inj hkey'
      exact draft_mergeValue hdraft v hv
    · exact hv
end

/-! ## Rules and fields of the schema -/

/-- Whether every text of a form is a draft of a schema. -/
def Form.suits (form : Form) : Schema → Bool
  | .str => true
  | .int => form = .number
  | .choice choices =>
    match form with
    | .oneOf tokens => tokens.all fun t => t ∈ choices
    | _ => false
  | _ => false

theorem Form.Accepts.draft {form : Form} {schema : Schema} {s : String}
    (hsuits : form.suits schema = true) (h : form.Accepts s.toList) : Draft schema (.str s) := by
  cases schema with
  | str => exact .str s
  | int =>
    have hform : form = .number := by simpa [Form.suits] using hsuits
    subst hform
    exact .int h
  | choice choices =>
    cases form with
    | oneOf tokens =>
      obtain ⟨_, t, ht, heq⟩ := h
      have hmem : t ∈ choices := by
        have := List.all_eq_true.mp hsuits t ht
        simpa using this
      rw [← String.toList_injective heq]
      exact .choice hmem
    | _ => simp [Form.suits] at hsuits
  | _ => simp [Form.suits] at hsuits

/-- Whether what a field reads is a draft of a schema, when the line's operands write `outputs`. -/
def Field.suits (outputs : List (String × Form)) (schema : Schema) (field : Field) : Bool :=
  match field.slot with
  | .text => outputs.all fun output => output.1 ≠ field.key || output.2.suits schema
  | _ =>
    match schema with
    | .bool => true
    | _ => false

/-- Whether what the fields read are drafts of declared fields. -/
def fieldsSuit (outputs : List (String × Form)) (declared : List (String × Schema))
    (fields : List Field) : Bool :=
  fields.all fun field =>
    match Entries.get? field.key declared with
    | some schema => field.suits outputs schema
    | none => false

/-- The schema at the end of a path of keys. -/
def fieldAt? (leaf : String) : List String → List (String × Schema) → Option Schema
  | [], fields => Entries.get? leaf fields
  | key :: keys, fields =>
    (Entries.get? key fields).bind fun schema => schema.fields?.bind (fieldAt? leaf keys)

/-- Whether what a rule leaves at its path is a draft of what the schema declares there. -/
def Rule.suits (fields : List (String × Schema)) (rule : Rule) : Bool :=
  match rule.shape, fieldAt? rule.leaf rule.parents fields with
  | .value slot, some schema => Field.suits rule.pattern.outputs schema ⟨rule.leaf, slot⟩
  | .map read, some (.dict declared) => fieldsSuit rule.pattern.outputs declared read
  | .item read, some (.list (.dict declared)) => fieldsSuit rule.pattern.outputs declared read
  | _, _ => false

theorem statements_suit : ∀ rule ∈ catalog, rule.lineClass.isStatement = true →
    rule.suits Schema.statementFields = true := by
  decide +kernel

theorem conditions_suit : ∀ rule ∈ catalog, rule.lineClass = .condition →
    rule.suits [("conditions", Schema.condition)] = true := by
  decide +kernel

/-! ## What a line leaves -/

/-- A field reads a draft of every schema that it suits, if it reads anything. -/
theorem Field.draft_read {outputs : List (String × Form)} {schema : Schema} {field : Field}
    (hsuits : field.suits outputs schema = true) {caps : Captures}
    (hcaps : ∀ entry ∈ caps, ∃ form, (entry.1, form) ∈ outputs ∧ form.Accepts entry.2.toList)
    {v : Value} (h : (field.read caps).value? = some v) : Draft schema v := by
  rcases Field.value?_read h with ⟨s, hslot, hmem, rfl⟩ | ⟨b, hslot, rfl⟩
  · obtain ⟨form, hform, haccepts⟩ := hcaps _ hmem
    simp only [Field.suits, hslot] at hsuits
    have hboth := List.all_eq_true.mp hsuits _ hform
    exact haccepts.draft (by simpa using hboth)
  · have hbool : schema = .bool := by
      unfold Field.suits at hsuits
      split at hsuits
      · rename_i htext
        exact absurd htext hslot
      · split at hsuits
        · rfl
        · simp at hsuits
    rw [hbool]
    exact .bool b

theorem draftEntries_fields {outputs : List (String × Form)} {declared : List (String × Schema)}
    {fields : List Field} (hsuit : fieldsSuit outputs declared fields = true) {caps : Captures}
    (hcaps : ∀ entry ∈ caps, ∃ form, (entry.1, form) ∈ outputs ∧ form.Accepts entry.2.toList) :
    DraftEntries declared ((fields.map fun field => (field.key, field.read caps)).filterMap
      fun field => field.2.value?.map fun v => (field.1, v)) := by
  intro e he
  obtain ⟨read, hread, hvalue⟩ := List.mem_filterMap.mp he
  obtain ⟨field, hfield, rfl⟩ := List.mem_map.mp hread
  obtain ⟨v, hv, rfl⟩ := Option.map_eq_some_iff.mp hvalue
  have hdeclared := List.all_eq_true.mp hsuit field hfield
  split at hdeclared
  · rename_i schema hschema
    exact ⟨schema, hschema, field.draft_read hdeclared hcaps hv⟩
  · simp at hdeclared

/-- A draft at the end of a path makes drafts of all mappings above it. -/
theorem draftEntries_path {leaf : String} {schema : Schema} {v : Value} (hv : Draft schema v)
    (parents : List String) {fields : List (String × Schema)}
    (h : fieldAt? leaf parents fields = some schema) :
    DraftEntries fields (parents.foldr (fun key below => [(key, .dict below)]) [(leaf, v)]) := by
  induction parents generalizing fields with
  | nil => exact .single schema h hv
  | cons key keys ih =>
    rw [fieldAt?] at h
    obtain ⟨above, habove, h⟩ := Option.bind_eq_some_iff.mp h
    obtain ⟨below, hbelow, h⟩ := Option.bind_eq_some_iff.mp h
    exact .single above habove ((ih h).draft hbelow)

theorem draft_fragment {fields : List (String × Schema)} {rule : Rule}
    (hsuits : rule.suits fields = true) {cs : List Char} {m : Match}
    (h : rule.match? cs = some m) : DraftEntries fields m.fragment := by
  obtain ⟨caps, hcaps, rfl⟩ := Option.map_eq_some_iff.mp h
  have haccepts := Pattern.accepts_of_captures hcaps
  rw [Match.fragment]
  split
  · exact .nil
  · rename_i v hv
    simp only [Match.leafValue?] at hv
    rw [Rule.suits] at hsuits
    split at hsuits
    · rename_i slot schema hshape hat
      -- one value: the only field of the rule
      simp only [hshape, Rule.fields, List.map_cons, List.map_nil, List.head?_cons,
        Option.bind_some] at hv
      exact draftEntries_path (Field.draft_read hsuits haccepts hv) rule.parents hat
    · rename_i read declared hshape hat
      simp only [hshape, Match.entries, Rule.fields] at hv
      rw [← Option.some.inj hv]
      exact draftEntries_path ((draftEntries_fields hsuits haccepts).draft rfl) rule.parents hat
    · rename_i read declared hshape hat
      simp only [hshape, Match.entries, Rule.fields] at hv
      rw [← Option.some.inj hv]
      refine draftEntries_path (.list fun item hitem => ?_) rule.parents hat
      rw [List.mem_singleton.mp hitem]
      exact (draftEntries_fields hsuits haccepts).draft rfl
    · simp at hsuits

/-! ## Documents -/

/-- What holds of the empty mapping and is kept by merging what a statement line leaves, holds of
every block of statements. -/
theorem foldStatements_induction {P : List (String × Value) → Prop} (hnil : P [])
    (hstep : ∀ acc line m, recognize LineClass.isStatement line = some m → P acc →
      P (Value.merge acc m.fragment)) (lines : List String) : P (foldStatements lines) := by
  unfold foldStatements
  generalize ([] : List (String × Value)) = acc at hnil
  induction lines generalizing acc with
  | nil => exact hnil
  | cons line lines ih =>
    rw [List.foldl_cons]
    apply ih
    split
    · rename_i m hm
      exact hstep acc line m hm hnil
    · exact hnil

theorem draftEntries_foldStatements (lines : List String) :
    DraftEntries Schema.statementFields (foldStatements lines) := by
  refine foldStatements_induction .nil (fun acc line m hm hacc => ?_) lines
  obtain ⟨rule, hrule, hclass, hmatch⟩ := exists_of_recognize hm
  exact draftEntries_merge _ hacc (draft_fragment (statements_suit rule hrule hclass) hmatch)

theorem draft_clauseValue? {clause : String} {v : Value} (h : clauseValue? clause = some v) :
    Draft Schema.condition v := by
  obtain ⟨m, hm, hget⟩ := Option.bind_eq_some_iff.mp h
  obtain ⟨rule, hrule, hclass, hmatch⟩ := exists_of_recognize hm
  have hfragment := draft_fragment (conditions_suit rule hrule (by simpa using hclass)) hmatch
  obtain ⟨schema, hschema, hdraft⟩ := hfragment _ (Entries.mem_of_get? hget)
  rw [Entries.get?, if_pos rfl] at hschema
  exact Option.some.inj hschema ▸ hdraft

theorem draft_block (b : Branch) : Draft Schema.block (.dict b.block) := by
  refine DraftEntries.draft rfl (draftEntries_merge _ ?_ ?_)
  · split
    · exact .nil
    · refine .single (.list Schema.condition) rfl (.list fun v hv => ?_)
      obtain ⟨clause, _, hclause⟩ := List.mem_filterMap.mp hv
      exact draft_clauseValue? hclause
  · refine (draftEntries_foldStatements b.statements).mono fun key schema h => ?_
    -- no statement writes `conditions`
    have hnone : Entries.get? "conditions" Schema.statementFields = none := rfl
    have hne : "conditions" ≠ key := by
      rintro rfl
      rw [hnone] at h
      exact absurd h (by simp)
    rw [Entries.get?, if_neg hne, h]

theorem draftEntries_level (l : Level) : DraftEntries Schema.scopeFields l.resolve := by
  refine .append (.append ?_ ?_) ?_
  · split
    · exact .nil
    · exact .single (.dict Schema.statementFields) rfl ((draftEntries_foldStatements l.globals).draft rfl)
  · intro e he
    obtain ⟨b, _, rfl⟩ := List.mem_map.mp he
    exact ⟨Schema.block, rfl, draft_block b⟩
  · split
    · exact .nil
    · refine .single (.list Schema.block) rfl (.list fun v hv => ?_)
      obtain ⟨b, _, rfl⟩ := List.mem_map.mp hv
      exact draft_block b

theorem draftEntries_scope (s : Scope) : DraftEntries Schema.scopeFields s.resolve := by
  induction s with
  | last l => exact draftEntries_level l
  | orElse l other ih =>
    refine .append (draftEntries_level l) ?_
    split
    · exact .nil
    · exact .single .scope rfl (ih.draft rfl)

/-- The document of every scope is a draft of a route map. -/
theorem draft_document (name : String) (s : Scope) :
    Draft Schema.routeMap (.dict (document name s)) := by
  refine DraftEntries.draft rfl (.append (a := [("name", .str name)])
    (.single .str rfl (.str name)) ?_)
  refine (draftEntries_scope s).mono fun key schema h => ?_
  have hnone : Entries.get? "name" Schema.scopeFields = none := rfl
  have hne : "name" ≠ key := by
    rintro rfl
    rw [hnone] at h
    exact absurd h (by simp)
  rw [Entries.get?, if_neg hne, h]

end RoutePolicy
