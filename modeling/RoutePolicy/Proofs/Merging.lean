import RoutePolicy.Proofs.Draft
import RoutePolicy.Proofs.Validation
import Mathlib.Data.List.Induction
import Mathlib.Data.List.Nodup

/-!
# Merging, place by place

`Value.merge` writes one mapping into another.  Here a merge is read at one place at a time.

* `keys_merge`, `FirstOrder.merge`   the keys of a merge are those of both mappings, in the order in
                       which they were first written;
* `at?_mergeValue`     at every path of keys, a merge holds the merge of what the two values hold;
* `mergeValue_assoc`   so three values can be merged from either side.

None of this is true of all values: a text that is written over a mapping takes away every path
below it, and a mapping with a repeated key is written twice.  The first is excluded for drafts of
one schema, where both values are of the same kind at every place, and the second by `Distinct`.
-/

namespace RoutePolicy

/-! ## Order of first occurrence -/

/-- The elements of `source`, each once, in the order in which they first occur there. -/
structure FirstOrder {α : Type} [DecidableEq α] (source firsts : List α) : Prop where
  /-- nothing is lost and nothing is added -/
  mem : ∀ a, a ∈ firsts ↔ a ∈ source
  /-- what stands earlier occurred earlier -/
  order : firsts.Pairwise fun a b => source.idxOf a < source.idxOf b

namespace FirstOrder
variable {α : Type} [DecidableEq α] {source firsts : List α}

theorem nil : FirstOrder ([] : List α) [] :=
  ⟨fun _ => Iff.rfl, .nil⟩

theorem nodup (h : FirstOrder source firsts) : firsts.Nodup := by
  refine List.Pairwise.imp ?_ h.order
  rintro a b hlt rfl
  exact Nat.lt_irrefl _ hlt

theorem self {l : List α} (h : l.Nodup) : FirstOrder l l := by
  refine ⟨fun _ => Iff.rfl, ?_⟩
  rw [List.pairwise_iff_getElem]
  intro i j hi hj hij
  rwa [h.idxOf_getElem, h.idxOf_getElem]

/-- a further occurrence counts only if it is the first -/
theorem concat (h : FirstOrder source firsts) (a : α) :
    FirstOrder (source ++ [a]) (if a ∈ firsts then firsts else firsts ++ [a]) := by
  have hold : firsts.Pairwise fun b c => (source ++ [a]).idxOf b < (source ++ [a]).idxOf c := by
    refine h.order.imp_of_mem fun hb hc hlt => ?_
    rw [List.idxOf_append_of_mem ((h.mem _).mp hb), List.idxOf_append_of_mem ((h.mem _).mp hc)]
    exact hlt
  split
  · rename_i ha
    refine ⟨fun b => ?_, hold⟩
    rw [h.mem, List.mem_append, List.mem_singleton]
    constructor
    · exact Or.inl
    · rintro (hb | rfl)
      · exact hb
      · exact (h.mem _).mp ha
  · rename_i ha
    have hnew : a ∉ source := mt (h.mem a).mpr ha
    refine ⟨fun b => by rw [List.mem_append, List.mem_append, h.mem], ?_⟩
    refine List.pairwise_append.mpr ⟨hold, List.pairwise_singleton _ _, fun b hb c hc => ?_⟩
    have hmem : b ∈ source := (h.mem b).mp hb
    rw [List.mem_singleton.mp hc, List.idxOf_append_of_mem hmem, List.idxOf_append_of_notMem hnew]
    exact Nat.lt_of_lt_of_le (List.idxOf_lt_length_of_mem hmem) (Nat.le_add_right _ _)

theorem eraseDups (source : List α) : FirstOrder source source.eraseDups := by
  induction source using List.reverseRecOn with
  | nil => exact nil
  | append_singleton source a ih =>
    have hconcat : (source ++ [a]).eraseDups
        = if a ∈ source.eraseDups then source.eraseDups else source.eraseDups ++ [a] := by
      rw [List.eraseDups_append]
      by_cases ha : a ∈ source <;> simp [List.removeAll, ha, List.eraseDups_cons]
    rw [hconcat]
    exact ih.concat a

theorem insert {source : List String} {β : Type} {entries : List (String × β)}
    (h : FirstOrder source (Entries.keys entries)) (key : String) (value : β) :
    FirstOrder (source ++ [key]) (Entries.keys (Entries.insert key value entries)) := by
  rw [Entries.keys_insert]
  exact h.concat key

theorem merge {source : List String} {acc entries : List (String × Value)}
    (h : FirstOrder source (Entries.keys acc)) :
    FirstOrder (source ++ Entries.keys entries) (Entries.keys (Value.merge acc entries)) := by
  induction entries generalizing source acc with
  | nil =>
    rw [Value.merge_nil]
    exact (List.append_nil source).symm ▸ h
  | cons e rest ih =>
    obtain ⟨key, v⟩ := e
    rw [Value.merge]
    show FirstOrder (source ++ ([key] ++ Entries.keys rest)) _
    rw [← List.append_assoc]
    exact ih (h.insert key _)

end FirstOrder

/-- Entries with the same keys in the same order are equal when every key reads the same. -/
theorem Entries.ext_get? {α : Type} {a b : List (String × α)} (hkeys : keys a = keys b)
    (hnodup : (keys a).Nodup) (h : ∀ key, get? key a = get? key b) : a = b := by
  induction a generalizing b with
  | nil => exact (List.map_eq_nil_iff.mp hkeys.symm).symm
  | cons e a ih =>
    obtain ⟨k, v⟩ := e
    cases b with
    | nil => cases hkeys
    | cons e' b =>
      obtain ⟨k', w⟩ := e'
      obtain ⟨rfl, hsame⟩ : k = k' ∧ keys a = keys b := List.cons.inj hkeys
      obtain ⟨hfresh, hunique⟩ := List.nodup_cons.mp hnodup
      have hfirst := h k
      rw [get?, if_pos rfl, get?, if_pos rfl] at hfirst
      have hrest : a = b := by
        refine ih hsame hunique fun key => ?_
        by_cases hkey : k = key
        · subst hkey
          rw [get?_eq_none_iff.mpr hfresh, get?_eq_none_iff.mpr (hsame ▸ hfresh)]
        · have hother := h key
          rwa [get?, if_neg hkey, get?, if_neg hkey] at hother
      rw [Option.some.inj hfirst, hrest]

theorem Entries.get?_of_mem {α : Type} {entries : List (String × α)} (hnodup : (keys entries).Nodup)
    {e : String × α} (h : e ∈ entries) : get? e.1 entries = some e.2 := by
  induction entries with
  | nil => cases h
  | cons first rest ih =>
    obtain ⟨hfresh, hunique⟩ := List.nodup_cons.mp hnodup
    rcases List.mem_cons.mp h with rfl | hrest
    · rw [get?, if_pos rfl]
    · have hne : first.1 ≠ e.1 := fun heq => hfresh (heq ▸ List.mem_map_of_mem hrest)
      rw [get?, if_neg hne, ih hunique hrest]

/-! ## Reading a merge -/

namespace Value

theorem get?_dict (key : String) (entries : List (String × Value)) :
    (Value.dict entries).get? key = Entries.get? key entries := rfl

theorem mergeValue_dict (acc entries : List (String × Value)) :
    mergeValue (.dict acc) (.dict entries) = .dict (merge acc entries) := by
  rw [mergeValue]

theorem mergeValue_list (acc items : List Value) :
    mergeValue (.list acc) (.list items) = .list (acc ++ items) := by
  rw [mergeValue]

theorem keys_merge {acc entries : List (String × Value)} (h : (Entries.keys entries).Nodup) :
    Entries.keys (merge acc entries)
      = Entries.keys acc ++ (Entries.keys entries).filter (· ∉ Entries.keys acc) := by
  induction entries generalizing acc with
  | nil => exact (congrArg Entries.keys (merge_nil acc)).trans (List.append_nil _).symm
  | cons e rest ih =>
    obtain ⟨key, v⟩ := e
    obtain ⟨hfresh, hrest⟩ := List.nodup_cons.mp h
    have hfresh : key ∉ Entries.keys rest := hfresh
    rw [merge, ih hrest, Entries.keys_insert]
    show _ = _ ++ (key :: Entries.keys rest).filter _
    by_cases hkey : key ∈ Entries.keys acc
    · rw [if_pos hkey, List.filter_cons_of_neg (by simpa using hkey)]
    · rw [if_neg hkey, List.filter_cons_of_pos (by simpa using hkey), List.append_assoc]
      refine congrArg (Entries.keys acc ++ key :: ·) (List.filter_congr fun other hother => ?_)
      have hne : other ≠ key := fun heq => hfresh (heq ▸ hother)
      simp [hne]

theorem nodup_keys_merge {acc entries : List (String × Value)} (hacc : (Entries.keys acc).Nodup)
    (h : (Entries.keys entries).Nodup) : (Entries.keys (merge acc entries)).Nodup := by
  rw [keys_merge h]
  refine List.nodup_append.mpr ⟨hacc, h.filter _, fun key hkey other hother heq => ?_⟩
  have hnot := (List.mem_filter.mp hother).2
  rw [← heq] at hnot
  exact absurd hkey (by simpa using hnot)

theorem keys_merge_assoc {a b c : List (String × Value)} (hb : (Entries.keys b).Nodup)
    (hc : (Entries.keys c).Nodup) :
    Entries.keys (merge (merge a b) c) = Entries.keys (merge a (merge b c)) := by
  rw [keys_merge hc, keys_merge hb, keys_merge (nodup_keys_merge hb hc), keys_merge hc,
    List.filter_append, List.filter_filter, List.append_assoc]
  congr 2
  refine List.filter_congr fun key _ => ?_
  simp only [List.mem_append, List.mem_filter, decide_not, Bool.not_eq_true',
    decide_eq_false_iff_not]
  by_cases hkey : key ∈ Entries.keys a <;> simp [hkey]

theorem get?_merge (key : String) {acc entries : List (String × Value)}
    (h : (Entries.keys entries).Nodup) :
    Entries.get? key (merge acc entries)
      = Option.merge mergeValue (Entries.get? key acc) (Entries.get? key entries) := by
  induction entries generalizing acc with
  | nil =>
    rw [merge_nil]
    cases Entries.get? key acc <;> rfl
  | cons e rest ih =>
    obtain ⟨k, v⟩ := e
    obtain ⟨hfresh, hrest⟩ := List.nodup_cons.mp h
    rw [merge, ih hrest, Entries.get?]
    by_cases hk : k = key
    · subst hk
      rw [if_pos rfl, Entries.get?_insert_self, Entries.get?_eq_none_iff.mpr hfresh]
      cases Entries.get? k acc <;> rfl
    · rw [if_neg hk, Entries.get?_insert_ne (Ne.symm hk)]

/-! ## Paths of keys -/

/-- The value at the end of a path of keys. -/
def at? : List String → Value → Option Value
  | [], v => some v
  | key :: path, v => (v.get? key).bind (at? path)

/-- No mapping that a path of keys leads to repeats a key. -/
def Distinct (v : Value) : Prop :=
  ∀ path entries, v.at? path = some (.dict entries) → (Entries.keys entries).Nodup

theorem Distinct.nodup {entries : List (String × Value)} (h : (Value.dict entries).Distinct) :
    (Entries.keys entries).Nodup :=
  h [] entries rfl

theorem Distinct.get? {v w : Value} (h : v.Distinct) {key : String} (hw : v.get? key = some w) :
    w.Distinct := by
  intro path entries hentries
  apply h (key :: path) entries
  rw [at?, hw]
  exact hentries

theorem Distinct.of_leaf {v : Value} (h : v.entries? = none) : v.Distinct := by
  intro path entries hentries
  cases path with
  | nil =>
    obtain rfl := Option.some.inj hentries
    cases h
  | cons key path =>
    rw [at?, Value.get?, h] at hentries
    cases hentries

theorem Distinct.dict {entries : List (String × Value)} (hnodup : (Entries.keys entries).Nodup)
    (h : ∀ e ∈ entries, e.2.Distinct) : (Value.dict entries).Distinct := by
  intro path below hbelow
  cases path with
  | nil =>
    rw [← Value.dict.inj (Option.some.inj hbelow)]
    exact hnodup
  | cons key path =>
    obtain ⟨w, hw, hat⟩ := Option.bind_eq_some_iff.mp hbelow
    exact h _ (Entries.mem_of_get? hw) path below hat

end Value

/-! ## Drafts -/

section
variable {schema : Schema} {v : Value}

/-- Where no mapping is declared, a draft has no keys. -/
theorem Draft.entries?_eq_none (h : Draft schema v) (hfields : schema.fields? = none) :
    v.entries? = none := by
  cases h with
  | dict hsome _ _ =>
    rw [hfields] at hsome
    cases hsome
  | _ => rfl

theorem Draft.get?_eq_none (h : Draft schema v) (hfields : schema.fields? = none) (key : String) :
    v.get? key = none := by
  rw [Value.get?, h.entries?_eq_none hfields]
  rfl

theorem Draft.get? {fields : List (String × Schema)} (h : Draft schema v)
    (hfields : schema.fields? = some fields) {key : String} {w : Value}
    (hw : v.get? key = some w) : ∃ field, Entries.get? key fields = some field ∧ Draft field w := by
  obtain ⟨entries, rfl⟩ := h.exists_dict hfields
  exact h.entries hfields _ (Entries.mem_of_get? hw)

/-- What two drafts have at one key are drafts of one declared field. -/
theorem Draft.get?_both {fields : List (String × Schema)} {x y u w : Value} (hx : Draft schema x)
    (hy : Draft schema y) (hfields : schema.fields? = some fields) {key : String}
    (hu : x.get? key = some u) (hw : y.get? key = some w) :
    ∃ field, Entries.get? key fields = some field ∧ Draft field u ∧ Draft field w := by
  obtain ⟨field, hfield, hdraft⟩ := hx.get? hfields hu
  obtain ⟨field', hfield', hdraft'⟩ := hy.get? hfields hw
  rw [hfield] at hfield'
  exact ⟨field, hfield, hdraft, Option.some.inj hfield' ▸ hdraft'⟩

end

open Value

/-- A merge is a merge at every place. -/
theorem Draft.at?_mergeValue {schema : Schema} {x y : Value} (hx : Draft schema x)
    (hy : Draft schema y) (hdistinct : y.Distinct) (path : List String) :
    (mergeValue x y).at? path = Option.merge mergeValue (x.at? path) (y.at? path) := by
  induction path generalizing schema x y with
  | nil => rfl
  | cons key path ih =>
    cases hfields : schema.fields? with
    | none =>
      have hleaf : ∀ {v : Value}, Draft schema v → v.at? (key :: path) = none := by
        intro v hv
        rw [at?, hv.get?_eq_none hfields]
        rfl
      rw [hleaf hx, hleaf hy, hleaf (draft_mergeValue hx y hy)]
      rfl
    | some fields =>
      obtain ⟨a, rfl⟩ := hx.exists_dict hfields
      obtain ⟨b, rfl⟩ := hy.exists_dict hfields
      rw [mergeValue_dict, at?, at?, at?, get?_dict, get?_dict, get?_dict,
        get?_merge key hdistinct.nodup]
      cases ha : Entries.get? key a with
      | none =>
        cases Entries.get? key b with
        | none => rfl
        | some w => cases h : w.at? path <;> simp [Option.merge, h]
      | some u =>
        cases hb : Entries.get? key b with
        | none => cases h : u.at? path <;> simp [Option.merge, h]
        | some w =>
          obtain ⟨field, _, hu, hw⟩ := hx.get?_both hy hfields ha hb
          exact ih hu hw (hdistinct.get? hb)

/-- Merging is associative on drafts of one schema.  The third value is taken apart: its mappings
are merged key by key, and at each key the three values are drafts of one declared field. -/
theorem Draft.mergeValue_assoc {schema : Schema} {x y z : Value} (hz : Draft schema z)
    (hx : Draft schema x) (hy : Draft schema y) (hdx : x.Distinct) (hdy : y.Distinct)
    (hdz : z.Distinct) :
    mergeValue (mergeValue x y) z = mergeValue x (mergeValue y z) := by
  induction hz generalizing x y with
  | str s => simp only [mergeValue]
  | int h => simp only [mergeValue]
  | bool b => simp only [mergeValue]
  | choice h => simp only [mergeValue]
  | list _ _ =>
    obtain ⟨a, rfl⟩ := hx.exists_list
    obtain ⟨b, rfl⟩ := hy.exists_list
    simp only [mergeValue_list, List.append_assoc]
  | @dict schema fields c hfields hsome hdraft ih =>
    have hz : Draft schema (.dict c) := .dict hfields hsome hdraft
    obtain ⟨a, rfl⟩ := hx.exists_dict hfields
    obtain ⟨b, rfl⟩ := hy.exists_dict hfields
    have hbc := nodup_keys_merge hdy.nodup hdz.nodup
    have hnodup := nodup_keys_merge (nodup_keys_merge hdx.nodup hdy.nodup) hdz.nodup
    simp only [mergeValue_dict]
    congr 1
    refine Entries.ext_get? (keys_merge_assoc hdy.nodup hdz.nodup) hnodup fun key => ?_
    rw [get?_merge key hdz.nodup, get?_merge key hdy.nodup, get?_merge key hbc,
      get?_merge key hdz.nodup]
    cases ha : Entries.get? key a with
    | none => cases Entries.get? key b <;> cases Entries.get? key c <;> rfl
    | some u =>
      cases hb : Entries.get? key b with
      | none => cases Entries.get? key c <;> rfl
      | some v =>
        cases hc : Entries.get? key c with
        | none => rfl
        | some w =>
          obtain ⟨field, hfield, hu, hv⟩ := hx.get?_both hy hfields ha hb
          exact congrArg some (ih _ (Entries.mem_of_get? hc) field hfield hu hv (hdx.get? ha)
            (hdy.get? hb) (hdz.get? hc))

end RoutePolicy
