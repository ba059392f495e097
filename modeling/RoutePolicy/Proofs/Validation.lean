import RoutePolicy.Facts

/-!
# Checked and pruned documents

What a successful check returns, one constructor at a time, and what pruning leaves of it.

* `validate_list_ok`, `validate_dict_ok`   a checked list or mapping has its parts checked;
* `validate_elsewhere`                     what a check returns does not depend on the place;
* `pruneEntries_validateEntries`           pruning takes nothing from a checked mapping whose leaves
                                           are texts that are not empty, or truth values;
* `finish_eq`                              documents are checked one after the other and pruned;
* `finish_append_ok`                       so the facts of some are not changed by others.
-/

namespace RoutePolicy

/-! ## Checked lists and mappings -/

namespace Schema

variable {schema : Schema} {path : Path} {v w : Value}

theorem validate_list_ok {items : List Value} (h : schema.validate path (.list items) = .ok w) :
    ∃ item ws, schema.item? = some item ∧ validateItems item path 0 items = .ok ws ∧
      w = .list ws := by
  rw [validate] at h
  split at h
  · rename_i item hitem
    cases hws : validateItems item path 0 items with
    | error fault => simp [hws, Except.map] at h
    | ok ws =>
      rw [hws] at h
      exact ⟨item, ws, hitem, hws, (Except.ok.inj h).symm⟩
  · simp at h

theorem validate_dict_ok {entries : List (String × Value)}
    (h : schema.validate path (.dict entries) = .ok w) :
    ∃ fields ws, schema.fields? = some fields ∧ validateEntries fields path entries = .ok ws ∧
      w = .dict ws := by
  rw [validate] at h
  split at h
  · rename_i fields hfields
    cases hws : validateEntries fields path entries with
    | error fault => simp [hws, Except.map] at h
    | ok ws =>
      rw [hws] at h
      exact ⟨fields, ws, hfields, hws, (Except.ok.inj h).symm⟩
  · simp at h

theorem validateItems_cons (item : Schema) (path : Path) (i : Nat) (v : Value) (vs : List Value) :
    validateItems item path i (v :: vs) = (item.validate (path ++ [.index i]) v).bind fun w =>
      (validateItems item path (i + 1) vs).map (w :: ·) := by
  rw [validateItems]
  cases item.validate (path ++ [.index i]) v <;> rfl

theorem validateEntries_cons {fields : List (String × Schema)} {key : String}
    (hkey : Entries.get? key fields = some schema) (path : Path) (v : Value)
    (es : List (String × Value)) :
    validateEntries fields path ((key, v) :: es) = (schema.validate (path ++ [.key key]) v).bind
      fun w => (validateEntries fields path es).map ((key, w) :: ·) := by
  simp only [validateEntries, hkey]
  cases schema.validate (path ++ [.key key]) v <;> rfl

theorem validateItems_cons_ok {item : Schema} {i : Nat} {vs ws : List Value}
    (h : validateItems item path i (v :: vs) = .ok ws) :
    ∃ w rest, item.validate (path ++ [.index i]) v = .ok w ∧
      validateItems item path (i + 1) vs = .ok rest ∧ ws = w :: rest := by
  rw [validateItems] at h
  split at h
  · simp at h
  · rename_i w hw
    cases hrest : validateItems item path (i + 1) vs with
    | error fault => simp [hrest, Except.map] at h
    | ok rest =>
      rw [hrest] at h
      exact ⟨w, rest, hw, rfl, (Except.ok.inj h).symm⟩

theorem validateEntries_cons_ok {fields : List (String × Schema)} {key : String}
    {es ws : List (String × Value)} (h : validateEntries fields path ((key, v) :: es) = .ok ws) :
    ∃ schema w rest, Entries.get? key fields = some schema ∧
      schema.validate (path ++ [.key key]) v = .ok w ∧
      validateEntries fields path es = .ok rest ∧ ws = (key, w) :: rest := by
  rw [validateEntries] at h
  split at h
  · simp at h
  · rename_i schema hschema
    split at h
    · simp at h
    · rename_i w hw
      cases hrest : validateEntries fields path es with
      | error fault => simp [hrest, Except.map] at h
      | ok rest =>
        rw [hrest] at h
        exact ⟨schema, w, rest, hschema, hw, rfl, (Except.ok.inj h).symm⟩

/-! ## Checked leaves -/

theorem validate_bool_ok {b : Bool} (h : schema.validate path (.bool b) = .ok w) :
    w = .bool b := by
  cases schema with
  | bool => exact (Except.ok.inj h).symm
  | _ => cases h

/-- A text stays, or it spells a number or a truth value. -/
theorem validate_str_ok {s : String} (h : schema.validate path (.str s) = .ok w) :
    w = .str s ∨ (∃ n, w = .num n) ∨ ∃ b, w = .bool b := by
  cases schema with
  | str => exact .inl (Except.ok.inj h).symm
  | int =>
    simp only [validate, validateLeaf] at h
    split at h
    · exact .inr (.inl ⟨_, (Except.ok.inj h).symm⟩)
    · cases h
  | bool =>
    simp only [validate, validateLeaf] at h
    split at h
    · exact .inr (.inr ⟨_, (Except.ok.inj h).symm⟩)
    · split at h
      · exact .inr (.inr ⟨_, (Except.ok.inj h).symm⟩)
      · cases h
  | choice choices =>
    simp only [validate, validateLeaf] at h
    split at h
    · exact .inl (Except.ok.inj h).symm
    · cases h
  | dict fields => cases h
  | list item => cases h
  | scope => cases h

/-! ## Checks in another place -/

theorem validateLeaf_elsewhere (other : Path) (h : schema.validateLeaf path v = .ok w) :
    schema.validateLeaf other v = .ok w := by
  fun_cases validateLeaf schema path v <;> simp_all [validateLeaf]

mutual
/-- Where a value stands only shows in its faults. -/
theorem validate_elsewhere {schema : Schema} {path : Path} (other : Path) :
    ∀ {v w : Value}, schema.validate path v = .ok w → schema.validate other v = .ok w
  | .null, _, h => h
  | .bool _, _, h => validateLeaf_elsewhere other h
  | .num _, _, h => validateLeaf_elsewhere other h
  | .str _, _, h => validateLeaf_elsewhere other h
  | .list items, _, h => by
    obtain ⟨item, ws, hitem, hws, rfl⟩ := validate_list_ok h
    simp only [validate, hitem, validateItems_elsewhere other 0 hws, Except.map]
  | .dict entries, _, h => by
    obtain ⟨fields, ws, hfields, hws, rfl⟩ := validate_dict_ok h
    simp only [validate, hfields, validateEntries_elsewhere other hws, Except.map]
theorem validateItems_elsewhere {item : Schema} {path : Path} {i : Nat} (other : Path) (j : Nat) :
    ∀ {vs ws : List Value}, validateItems item path i vs = .ok ws →
      validateItems item other j vs = .ok ws
  | [], _, h => h
  | v :: vs, _, h => by
    obtain ⟨w, rest, hw, hrest, rfl⟩ := validateItems_cons_ok h
    have hw' := validate_elsewhere (other ++ [Step.index j]) hw
    simp only [validateItems, hw', validateItems_elsewhere other (j + 1) hrest, Except.map]
theorem validateEntries_elsewhere {fields : List (String × Schema)} {path : Path} (other : Path) :
    ∀ {es ws : List (String × Value)}, validateEntries fields path es = .ok ws →
      validateEntries fields other es = .ok ws
  | [], _, h => h
  | (key, v) :: es, _, h => by
    obtain ⟨schema, w, rest, hschema, hw, hrest, rfl⟩ := validateEntries_cons_ok h
    have hw' := validate_elsewhere (other ++ [Step.key key]) hw
    simp only [validateEntries, hschema, hw', validateEntries_elsewhere other hrest, Except.map]
end

theorem validateItems_append_ok {item : Schema} {i : Nat} {us vs ws : List Value} :
    validateItems item path i (us ++ vs) = .ok ws ↔
      ∃ xs ys, validateItems item path i us = .ok xs ∧ validateItems item path i vs = .ok ys ∧
        xs ++ ys = ws := by
  induction us generalizing i ws with
  | nil =>
    constructor
    · intro h
      exact ⟨[], ws, by rw [validateItems], h, rfl⟩
    · rintro ⟨xs, ys, hxs, hys, rfl⟩
      rw [validateItems] at hxs
      rw [← Except.ok.inj hxs]
      exact hys
  | cons u us ih =>
    constructor
    · intro h
      obtain ⟨x, rest, hx, hrest, rfl⟩ := validateItems_cons_ok h
      obtain ⟨xs, ys, hxs, hys, rfl⟩ := ih.mp hrest
      refine ⟨x :: xs, ys, ?_, validateItems_elsewhere path i hys, rfl⟩
      simp only [validateItems, hx, hxs, Except.map]
    · rintro ⟨xs, ys, hxs, hys, rfl⟩
      obtain ⟨x, rest, hx, hrest, rfl⟩ := validateItems_cons_ok hxs
      have htail := ih.mpr ⟨rest, ys, hrest, validateItems_elsewhere path (i + 1) hys, rfl⟩
      simp only [List.cons_append, validateItems, hx, htail, Except.map]

end Schema

/-! ## What pruning keeps -/

namespace Value

def get? (key : String) (v : Value) : Option Value :=
  v.entries?.bind (Entries.get? key)

def keys (v : Value) : List String :=
  Entries.keys (v.entries?.getD [])

theorem pruneItems_cons (v : Value) (vs : List Value) :
    pruneItems (v :: vs) = v.prune?.toList ++ pruneItems vs := by
  rw [pruneItems]
  cases v.prune? <;> rfl

theorem pruneItems_append (us vs : List Value) :
    pruneItems (us ++ vs) = pruneItems us ++ pruneItems vs := by
  induction us with
  | nil =>
    rw [List.nil_append, pruneItems]
    rfl
  | cons u us ih =>
    rw [List.cons_append, pruneItems_cons, pruneItems_cons, ih, List.append_assoc]

theorem pruneEntries_cons (key : String) (v : Value) (es : List (String × Value)) :
    pruneEntries ((key, v) :: es) = (v.prune?.map (key, ·)).toList ++ pruneEntries es := by
  rw [pruneEntries]
  cases v.prune? <;> rfl

theorem prune?_dict {es : List (String × Value)} (h : pruneEntries es ≠ []) :
    prune? (.dict es) = some (.dict (pruneEntries es)) := by
  rw [prune?]
  cases hes : pruneEntries es with
  | nil => exact absurd hes h
  | cons e es => rfl

theorem items_prune_list (items : List Value) :
    (prune (.list items)).items?.getD [] = pruneItems items := by
  rw [prune, prune?]
  cases pruneItems items <;> rfl

/-- A text that is not empty, or a truth value. -/
def Filled : Value → Prop
  | .bool _ => True
  | .str s => s ≠ ""
  | _ => False

/-- The declared form of a leaf says as much as the leaf. -/
theorem Filled.prune?_validate {v w : Value} (hv : v.Filled) {schema : Schema} {path : Path}
    (h : schema.validate path v = .ok w) : w.prune? = some w := by
  cases v with
  | bool b =>
    rw [Schema.validate_bool_ok h, prune?]
  | str s =>
    rcases Schema.validate_str_ok h with rfl | ⟨n, rfl⟩ | ⟨b, rfl⟩
    · rw [prune?, if_neg hv]
    · rw [prune?]
    · rw [prune?]
  | _ => exact hv.elim

/-- Pruning takes nothing from a checked mapping of filled leaves. -/
theorem pruneEntries_validateEntries {es ws : List (String × Value)} (hes : ∀ e ∈ es, e.2.Filled)
    {fields : List (String × Schema)} {path : Path}
    (h : Schema.validateEntries fields path es = .ok ws) :
    pruneEntries ws = ws ∧ ws.length = es.length := by
  induction es generalizing ws with
  | nil =>
    rw [Schema.validateEntries] at h
    rw [← Except.ok.inj h]
    exact ⟨by rw [pruneEntries], rfl⟩
  | cons e es ih =>
    obtain ⟨key, v⟩ := e
    obtain ⟨schema, w, rest, _, hw, hrest, rfl⟩ := Schema.validateEntries_cons_ok h
    obtain ⟨hprune, hlength⟩ := ih (fun e he => hes e (List.mem_cons_of_mem _ he)) hrest
    have hfilled : v.Filled := hes (key, v) List.mem_cons_self
    refine ⟨?_, by rw [List.length_cons, List.length_cons, hlength]⟩
    rw [pruneEntries_cons, hfilled.prune?_validate hw, hprune]
    rfl

end Value

/-! ## From documents to facts -/

theorem ok_of_toOption {ε α : Type} {x : Except ε α} {a : α} (h : x.toOption = some a) :
    x = .ok a := by
  cases x with
  | error e => cases h
  | ok b => rw [Option.some.inj h]

theorem error_of_toOption {ε α : Type} {x : Except ε α} (h : x.toOption = none) :
    ∃ e, x = .error e := by
  cases x with
  | error e => exact ⟨e, rfl⟩
  | ok a => cases h

/-- Documents are checked one after the other and then pruned. -/
theorem finish_eq (documents : List (List (String × Value))) :
    finish documents = match Schema.validateItems .routeMap [] 0 (documents.map .dict) with
      | .error fault => .error (.invalid fault)
      | .ok values => .ok (Value.pruneItems values) := by
  have hvalidate : Schema.routeMaps.validate [] (.list (documents.map .dict))
      = (Schema.validateItems .routeMap [] 0 (documents.map .dict)).map .list := rfl
  rw [finish, hvalidate]
  cases Schema.validateItems .routeMap [] 0 (documents.map .dict) with
  | error fault => rfl
  | ok values => exact congrArg Except.ok (Value.items_prune_list values)

theorem finish_eq_ok_iff {documents : List (List (String × Value))} {facts : List Value} :
    finish documents = .ok facts ↔
      ∃ values, Schema.validateItems .routeMap [] 0 (documents.map .dict) = .ok values ∧
        Value.pruneItems values = facts := by
  rw [finish_eq]
  cases Schema.validateItems .routeMap [] 0 (documents.map .dict) <;> simp

/-- Documents pass together when each part passes, and the facts are those of the parts. -/
theorem finish_append_ok {first second : List (List (String × Value))} {facts : List Value} :
    finish (first ++ second) = .ok facts ↔
      ∃ a b, finish first = .ok a ∧ finish second = .ok b ∧ a ++ b = facts := by
  simp only [finish_eq_ok_iff, List.map_append, Schema.validateItems_append_ok]
  constructor
  · rintro ⟨values, ⟨xs, ys, hxs, hys, rfl⟩, rfl⟩
    exact ⟨_, _, ⟨xs, hxs, rfl⟩, ⟨ys, hys, rfl⟩, (Value.pruneItems_append xs ys).symm⟩
  · rintro ⟨a, b, ⟨xs, hxs, rfl⟩, ⟨ys, hys, rfl⟩, rfl⟩
    exact ⟨_, ⟨xs, ys, hxs, hys, rfl⟩, Value.pruneItems_append xs ys⟩

end RoutePolicy
