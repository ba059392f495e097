import Mathlib.Data.Finmap
import RoutePolicy.Proofs.Gathering
import RoutePolicy.Store

/-!
# Runs of a store

A store is written, cleared and filled with gathered facts, in any order and any number of times.
Through all of it the store is a finite map, whatever an erased entry does to the order of the
others.

Filling a store fetches everything first, then erases the old facts, then checks the new documents.
Commands and stray branches can only fail before the erasing and documents only after it, so the
kind of an error tells what became of the old facts, and the new store is a function of what was
gathered (`afterGather`).

* `erase_perm`            erasing is filtering, up to order;
* `populate_eq`           filling a store is gathering, and one change to the store;
* `apply_refines`         a step of a store is a step of a finite map;
* `populate_after_run`    what filling a store does after any run.
-/

namespace RoutePolicy

/-! ## Entries with unique keys -/

namespace Entries
variable {α : Type} {key : String} {entries : List (String × α)}

theorem get?_eq_some_iff (hunique : (keys entries).Nodup) {value : α} :
    get? key entries = some value ↔ (key, value) ∈ entries := by
  induction entries with
  | nil => simp
  | cons e rest ih =>
    obtain ⟨k, v⟩ := e
    obtain ⟨hfresh, hrest⟩ := List.nodup_cons.mp hunique
    by_cases hk : k = key
    · subst hk
      have hnot : (k, value) ∉ rest := fun hmem => hfresh (List.mem_map.mpr ⟨_, hmem, rfl⟩)
      simp [get?, hnot, eq_comm]
    · simp [get?, hk, Ne.symm hk, ih hrest]

theorem nodup_keys_insert (hunique : (keys entries).Nodup) (key : String) (value : α) :
    (keys (insert key value entries)).Nodup := by
  rw [keys_insert]
  split
  · exact hunique
  · rename_i hnew
    exact List.nodup_append.mpr ⟨hunique, List.nodup_singleton key, fun k hk other hother h =>
      hnew (List.mem_singleton.mp hother ▸ h ▸ hk)⟩

theorem lastFirst_perm (entries : List α) : (lastFirst entries).Perm entries := by
  rw [lastFirst]
  cases h : entries.getLast? with
  | none => rw [List.getLast?_eq_none_iff.mp h]
  | some e =>
    obtain ⟨before, rfl⟩ := List.getLast?_eq_some_iff.mp h
    simp only [List.dropLast_concat]
    exact (List.perm_append_singleton e before).symm

/-- Erasing a key removes its entry and nothing else, and may reorder what is left. -/
theorem erase_perm (hunique : (keys entries).Nodup) (key : String) :
    (erase key entries).Perm (entries.filter fun e => e.1 ≠ key) := by
  induction entries with
  | nil => exact .nil
  | cons e rest ih =>
    obtain ⟨k, v⟩ := e
    obtain ⟨hfresh, hrest⟩ := List.nodup_cons.mp hunique
    by_cases hk : k = key
    · subst hk
      have hkept : rest.filter (fun e => e.1 ≠ k) = rest :=
        List.filter_eq_self.mpr fun e he =>
          decide_eq_true fun h => hfresh (List.mem_map.mpr ⟨e, he, h⟩)
      rw [erase, if_pos rfl, List.filter_cons_of_neg (by simp), hkept]
      exact lastFirst_perm rest
    · rw [erase, if_neg hk, List.filter_cons_of_pos (by simpa using hk)]
      exact (ih hrest).cons _

theorem nodup_keys_erase (hunique : (keys entries).Nodup) (key : String) :
    (keys (erase key entries)).Nodup := by
  have hperm : (keys (erase key entries)).Perm (keys (entries.filter fun e => e.1 ≠ key)) :=
    (erase_perm hunique key).map _
  exact hperm.nodup_iff.mpr (hunique.sublist (List.filter_sublist.map _))

theorem get?_erase_self (hunique : (keys entries).Nodup) (key : String) :
    get? key (erase key entries) = none := by
  rw [get?_eq_none_iff]
  intro hmem
  obtain ⟨e, he, rfl⟩ := List.mem_map.mp hmem
  have hkept := (List.mem_filter.mp ((erase_perm hunique e.1).mem_iff.mp he)).2
  exact of_decide_eq_true hkept rfl

theorem get?_erase_ne (hunique : (keys entries).Nodup) {key other : String} (h : other ≠ key) :
    get? other (erase key entries) = get? other entries := by
  apply Option.ext
  intro value
  rw [get?_eq_some_iff (nodup_keys_erase hunique key), get?_eq_some_iff hunique,
    (erase_perm hunique key).mem_iff, List.mem_filter]
  exact and_iff_left (decide_eq_true h)

theorem erase_of_not_mem (h : key ∉ keys entries) : erase key entries = entries := by
  induction entries with
  | nil => rfl
  | cons e rest ih =>
    obtain ⟨k, v⟩ := e
    obtain ⟨hk, hrest⟩ := not_or.mp (mt List.mem_cons.mpr h)
    rw [erase, if_neg (Ne.symm hk), ih hrest]

/-- An entry that was just added is erased without a trace. -/
theorem erase_insert_of_not_mem (h : key ∉ keys entries) (value : α) :
    erase key (insert key value entries) = entries := by
  rw [insert_of_not_mem h]
  induction entries with
  | nil => simp [erase, lastFirst]
  | cons e rest ih =>
    obtain ⟨k, v⟩ := e
    obtain ⟨hk, hrest⟩ := not_or.mp (mt List.mem_cons.mpr h)
    rw [List.cons_append, erase, if_neg (Ne.symm hk), ih hrest]

end Entries

namespace Store

/-! ## Filling a store -/

section
variable {σ : Type}

/-- The store after these facts, or this error, were gathered. -/
def afterGather (store : Store) : Except Error (List Value) → Store
  | .error (.fetch _ _) => store
  | .error (.strayBranch _) => store
  | .error (.invalid _) => store.erase routeMapsKey
  | .ok facts => (store.erase routeMapsKey).insert routeMapsKey (.list facts)

theorem afterGather_of_isEarly {e : Error} (h : e.IsEarly) (store : Store) :
    store.afterGather (.error e) = store := by
  cases e with
  | fetch command failure => rfl
  | strayBranch stray => rfl
  | invalid fault => exact h.elim

theorem populate_eq (store : Store) (device : Device σ) (strict : Bool) (given : Option String)
    (s : σ) :
    store.populate device strict given s
      = (((gather device strict given s).1.map fun _ => (),
            store.afterGather (gather device strict given s).1),
          (gather device strict given s).2) := by
  rw [populate, gather]
  rcases hcollect : collect device strict given s with ⟨e | traces, s'⟩
  · have hearly : e.IsEarly := collect_error (congrArg Prod.fst hcollect)
    simp only [afterGather_of_isEarly hearly]
    rfl
  · cases hfacts : factsOf traces with
    | error e =>
      obtain ⟨fault, rfl⟩ := factsOf_error hfacts
      simp only [hfacts]
      rfl
    | ok facts =>
      simp only [hfacts]
      rfl

end

/-! ## Steps and runs -/

/-- A step of a store.  Facts may come from another device each time, in whatever state it is. -/
inductive Op : Type 1 where
  | insert (resource : String) (value : Value)
  | erase (resource : String)
  | populate {σ : Type} (device : Device σ) (strict : Bool) (given : Option String) (s : σ)

def apply (store : Store) : Op → Store
  | .insert resource value => store.insert resource value
  | .erase resource => store.erase resource
  | .populate device strict given s => (store.populate device strict given s).1.2

def run (ops : List Op) : Store :=
  ops.foldl apply {}

abbrev Plain := Finmap fun _ : String => Value

/-- What a step is for a finite map. -/
def Op.onPlain (map : Plain) : Op → Plain
  | .insert resource value => map.insert resource value
  | .erase resource => map.erase resource
  | .populate device strict given s =>
    match (gather device strict given s).1 with
    | .error (.fetch _ _) => map
    | .error (.strayBranch _) => map
    | .error (.invalid _) => map.erase routeMapsKey
    | .ok facts => map.insert routeMapsKey (.list facts)

def runPlain (ops : List Op) : Plain :=
  ops.foldl Op.onPlain ∅

/-- The store has one entry for each key, and what it holds is what the map holds. -/
structure Refines (store : Store) (map : Plain) : Prop where
  unique : (Entries.keys store.resources).Nodup
  reads : ∀ resource, store.get? resource = map.lookup resource

variable {store : Store} {map : Plain}

theorem Refines.empty : Refines {} ∅ where
  unique := List.nodup_nil
  reads resource := by rw [Finmap.lookup_empty]; rfl

theorem Refines.insert (h : Refines store map) (resource : String) (value : Value) :
    Refines (store.insert resource value) (map.insert resource value) where
  unique := Entries.nodup_keys_insert h.unique resource value
  reads other := by
    by_cases hother : other = resource
    · subst hother
      rw [Finmap.lookup_insert]
      exact Entries.get?_insert_self other value _
    · rw [Finmap.lookup_insert_of_ne _ hother, ← h.reads]
      exact Entries.get?_insert_ne hother value _

theorem Refines.erase (h : Refines store map) (resource : String) :
    Refines (store.erase resource) (map.erase resource) where
  unique := Entries.nodup_keys_erase h.unique resource
  reads other := by
    by_cases hother : other = resource
    · subst hother
      rw [Finmap.lookup_erase]
      exact Entries.get?_erase_self h.unique other
    · rw [Finmap.lookup_erase_ne hother, ← h.reads]
      exact Entries.get?_erase_ne h.unique hother

theorem plain_insert_erase (map : Plain) (resource : String) (value : Value) :
    (map.erase resource).insert resource value = map.insert resource value := by
  apply Finmap.ext_lookup
  intro other
  by_cases hother : other = resource
  · subst hother
    rw [Finmap.lookup_insert, Finmap.lookup_insert]
  · rw [Finmap.lookup_insert_of_ne _ hother, Finmap.lookup_erase_ne hother,
      Finmap.lookup_insert_of_ne _ hother]

theorem apply_refines (h : Refines store map) (op : Op) :
    Refines (store.apply op) (op.onPlain map) := by
  cases op with
  | insert resource value => exact h.insert resource value
  | erase resource => exact h.erase resource
  | populate device strict given s =>
    rw [apply, populate_eq, Op.onPlain]
    match (gather device strict given s).1 with
    | .error (.fetch _ _) => exact h
    | .error (.strayBranch _) => exact h
    | .error (.invalid _) => exact h.erase routeMapsKey
    | .ok facts =>
      show Refines _ (map.insert routeMapsKey (.list facts))
      rw [← plain_insert_erase]
      exact (h.erase routeMapsKey).insert routeMapsKey (.list facts)

theorem foldl_refines (h : Refines store map) (ops : List Op) :
    Refines (ops.foldl apply store) (ops.foldl Op.onPlain map) := by
  induction ops generalizing store map with
  | nil => exact h
  | cons op ops ih => exact ih (apply_refines h op)

theorem run_refines (ops : List Op) : Refines (run ops) (runPlain ops) :=
  foldl_refines .empty ops

/-! ## What filling a store does -/

/-- The outcomes of filling a store, by what was gathered: the result and the store that is left. -/
inductive Populated (store : Store) : Except Error (List Value) → Except Error Unit → Store → Prop
  | fetch (command : String) (failure : FetchFailure) :
    Populated store (.error (.fetch command failure)) (.error (.fetch command failure)) store
  | strayBranch (stray : StrayBranch) :
    Populated store (.error (.strayBranch stray)) (.error (.strayBranch stray)) store
  -- the old facts are gone, and there are no new ones
  | invalid (fault : Fault) {after : Store}
      (hgone : routeMapsKey ∉ Entries.keys after.resources)
      (hothers : ∀ resource, resource ≠ routeMapsKey → after.get? resource = store.get? resource) :
    Populated store (.error (.invalid fault)) (.error (.invalid fault)) after
  | filled (facts : List Value) {after : Store}
      (hfacts : after.get? routeMapsKey = some (.list facts))
      (hothers : ∀ resource, resource ≠ routeMapsKey → after.get? resource = store.get? resource) :
    Populated store (.ok facts) (.ok ()) after

theorem populated_afterGather (hunique : (Entries.keys store.resources).Nodup)
    (gathered : Except Error (List Value)) :
    Populated store gathered (gathered.map fun _ => ()) (store.afterGather gathered) := by
  have hothers : ∀ resource, resource ≠ routeMapsKey →
      (store.erase routeMapsKey).get? resource = store.get? resource :=
    fun resource h => Entries.get?_erase_ne hunique h
  match gathered with
  | .error (.fetch command failure) => exact .fetch command failure
  | .error (.strayBranch stray) => exact .strayBranch stray
  | .error (.invalid fault) =>
    exact .invalid fault (Entries.get?_eq_none_iff.mp (Entries.get?_erase_self hunique _)) hothers
  | .ok facts =>
    refine .filled facts (Entries.get?_insert_self _ _ _) fun resource h => ?_
    rw [← hothers resource h]
    exact Entries.get?_insert_ne h _ _

/-- The second time, the facts stand at the end, or are absent, so erasing them moves nothing. -/
theorem afterGather_afterGather (hunique : (Entries.keys store.resources).Nodup)
    (gathered : Except Error (List Value)) :
    (store.afterGather gathered).afterGather gathered = store.afterGather gathered := by
  have hgone : routeMapsKey ∉ Entries.keys (store.erase routeMapsKey).resources :=
    Entries.get?_eq_none_iff.mp (Entries.get?_erase_self hunique routeMapsKey)
  match gathered with
  | .error (.fetch command failure) => rfl
  | .error (.strayBranch stray) => rfl
  | .error (.invalid fault) => exact congrArg Store.mk (Entries.erase_of_not_mem hgone)
  | .ok facts =>
    have hback : ((store.erase routeMapsKey).insert routeMapsKey (.list facts)).erase routeMapsKey
        = store.erase routeMapsKey :=
      congrArg Store.mk (Entries.erase_insert_of_not_mem hgone _)
    rw [afterGather, afterGather, hback]

/-- **Filling a store after any run.**  The store is a finite map with unique keys.  Filling it
leaves it as it was when a command fails or a body is refused, takes the old facts away when a
document is refused, and puts the new facts in otherwise; result and facts are those of gathering
with the same answers, and doing it again with the same answers changes nothing. -/
theorem populate_after_run (ops : List Op) :
    Refines (run ops) (runPlain ops) ∧
    ∀ {σ τ : Type} (device : Device σ) (again : Device τ) (strict : Bool) (given : Option String)
      (s : σ) (s' : τ), answers device strict given s = answers again strict given s' →
      Populated (run ops) (gather again strict given s').1
        ((run ops).populate device strict given s).1.1
        ((run ops).populate device strict given s).1.2 ∧
      (((run ops).populate device strict given s).1.2.populate again strict given s').1
        = ((run ops).populate device strict given s).1 := by
  have hrefines := run_refines ops
  refine ⟨hrefines, fun device again strict given s s' hanswers => ?_⟩
  rw [populate_eq _ device, populate_eq _ again, ← gather_congr hanswers]
  refine ⟨populated_afterGather hrefines.unique _, ?_⟩
  simp only [afterGather_afterGather hrefines.unique]

/-- Every kind of step; the erased entry leaves the old facts in the middle, and the device has no
answer. -/
def mixedRun : List Op :=
  [.insert "bgp" .null, .insert routeMapsKey (.list []), .insert "interfaces" (.ofNat 1),
    .insert "vlans" (.ofNat 2), .erase "bgp", .populate (.transcript []) true none []]

def onePolicy : String := "route-policy P\n drop\nend-policy"

def recordedPolicy : List (String × String) :=
  [(namesCommand, "route-policy P"), (policyCommand "P", onePolicy)]

theorem populate_after_mixedRun :
    answers (.runningConfig onePolicy) true none ()
      = answers (.transcript recordedPolicy) true none [] ∧
    (gather (.transcript recordedPolicy) true none []).1
      = .ok [.dict [("name", .str "P"), ("global", .dict [("drop", .bool true)])]] ∧
    Entries.keys (run mixedRun).resources = ["vlans", "route_maps", "interfaces"] ∧
    Entries.keys ((run mixedRun).populate (.runningConfig onePolicy) true none ()).1.2.resources
      = ["vlans", "interfaces", "route_maps"] ∧
    Populated (run mixedRun) (gather (.transcript recordedPolicy) true none []).1
      ((run mixedRun).populate (.runningConfig onePolicy) true none ()).1.1
      ((run mixedRun).populate (.runningConfig onePolicy) true none ()).1.2 ∧
    (((run mixedRun).populate (.runningConfig onePolicy) true none ()).1.2.populate
        (.transcript recordedPolicy) true none []).1
      = ((run mixedRun).populate (.runningConfig onePolicy) true none ()).1 := by
  have hanswers : answers (.runningConfig onePolicy) true none ()
      = answers (.transcript recordedPolicy) true none [] := by decide +kernel
  exact ⟨hanswers, by decide +kernel, by decide +kernel, by decide +kernel,
    (populate_after_run mixedRun).2 _ _ true none () [] hanswers⟩

end Store

end RoutePolicy
