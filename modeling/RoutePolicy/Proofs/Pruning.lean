import RoutePolicy.Proofs.FirstFault

/-!
# What pruning leaves

Pruning goes from the leaves up, so a list or a mapping may be dropped because of what was dropped
many levels below it.  What is left is described here without the function:

* `Value.Full`      no place of a value holds something empty;
* `Value.leaves`    the leaves that are not empty, in document order, with the keys above them;
* `Thinned`         items and entries may be left out, and those that stay keep their order.

What pruning leaves of a value is full (`full_of_prune?`), is the value thinned out
(`thinned_of_prune?`) and has the leaves of the value (`leaves_prune`), and nothing else is all three
(`Thinned.prune?_eq_some`).
-/

namespace RoutePolicy

namespace Value

/-! ## Parts -/

/-- An induction on values that has the parts of a list or a mapping by membership. -/
@[elab_as_elim]
theorem parts_induction {motive : Value → Prop}
    (leaf : ∀ v : Value, v.items? = none → v.entries? = none → motive v)
    (list : ∀ items : List Value, (∀ v ∈ items, motive v) → motive (.list items))
    (dict : ∀ entries : List (String × Value), (∀ e ∈ entries, motive e.2) →
      motive (.dict entries)) (v : Value) : motive v := by
  refine @Value.rec motive (fun items => ∀ v ∈ items, motive v)
    (fun entries => ∀ e ∈ entries, motive e.2) (fun e => motive e.2)
    (leaf _ rfl rfl) (fun _ => leaf _ rfl rfl) (fun _ => leaf _ rfl rfl) (fun _ => leaf _ rfl rfl)
    list dict ?_ ?_ ?_ ?_ ?_ v
  · exact List.forall_mem_nil _
  · exact fun v vs hv hvs => List.forall_mem_cons.mpr ⟨hv, hvs⟩
  · exact List.forall_mem_nil _
  · exact fun e es he hes => List.forall_mem_cons.mpr ⟨he, hes⟩
  · exact fun _ _ hv => hv

theorem mem_pruneItems {items : List Value} {w : Value} :
    w ∈ pruneItems items ↔ ∃ v ∈ items, v.prune? = some w := by
  induction items with
  | nil => simp [pruneItems]
  | cons v vs ih => simp [pruneItems_cons, ih]

theorem mem_pruneEntries {entries : List (String × Value)} {key : String} {w : Value} :
    (key, w) ∈ pruneEntries entries ↔ ∃ v, (key, v) ∈ entries ∧ v.prune? = some w := by
  induction entries with
  | nil => simp [pruneEntries]
  | cons e es ih =>
    obtain ⟨key', v⟩ := e
    simp [pruneEntries_cons, ih, or_and_right, exists_or, and_assoc, eq_comm, and_comm]

theorem prune?_list_eq_some {items : List Value} {w : Value}
    (h : (Value.list items).prune? = some w) :
    pruneItems items ≠ [] ∧ w = .list (pruneItems items) := by
  have hne : pruneItems items ≠ [] := by
    intro hnil
    rw [prune?, hnil] at h
    cases h
  rw [prune?_list hne] at h
  exact ⟨hne, (Option.some.inj h).symm⟩

theorem prune?_dict_eq_some {entries : List (String × Value)} {w : Value}
    (h : (Value.dict entries).prune? = some w) :
    pruneEntries entries ≠ [] ∧ w = .dict (pruneEntries entries) := by
  have hne : pruneEntries entries ≠ [] := by
    intro hnil
    rw [prune?, hnil] at h
    cases h
  rw [prune?_dict hne] at h
  exact ⟨hne, (Option.some.inj h).symm⟩

/-! ## Full values -/

/-- Null, or a text, a list or a mapping with nothing in it. -/
def IsVacant (v : Value) : Prop :=
  v = .null ∨ v = .str "" ∨ v = .list [] ∨ v = .dict []

instance : DecidablePred IsVacant := fun v =>
  inferInstanceAs (Decidable (v = .null ∨ v = .str "" ∨ v = .list [] ∨ v = .dict []))

/-- No place of the value holds something empty, its own included. -/
def Full (v : Value) : Prop :=
  ∀ path w, Leads v path w → ¬ w.IsVacant

theorem Full.not_isVacant {v : Value} (h : v.Full) : ¬ v.IsVacant :=
  h [] v (.here v)

theorem full_leaf {v : Value} (hitems : v.items? = none) (hentries : v.entries? = none)
    (h : ¬ v.IsVacant) : v.Full := by
  intro path w hleads
  cases hleads with
  | here => exact h
  | item _ _ => cases hitems
  | entry _ _ => cases hentries

theorem full_list_iff {items : List Value} :
    (Value.list items).Full ↔ items ≠ [] ∧ ∀ v ∈ items, v.Full := by
  constructor
  · intro h
    refine ⟨?_, fun v hv path w hleads => ?_⟩
    · rintro rfl
      exact h.not_isVacant (.inr (.inr (.inl rfl)))
    · obtain ⟨i, hi⟩ := List.mem_iff_getElem?.mp hv
      exact h _ w (.item hi hleads)
  · rintro ⟨hne, hfull⟩ path w hleads
    cases hleads with
    | here => simpa [IsVacant] using hne
    | item hv hleads => exact hfull _ (List.mem_of_getElem? hv) _ w hleads

theorem full_dict_iff {entries : List (String × Value)} :
    (Value.dict entries).Full ↔ entries ≠ [] ∧ ∀ e ∈ entries, e.2.Full := by
  constructor
  · intro h
    refine ⟨?_, fun e he path w hleads => ?_⟩
    · rintro rfl
      exact h.not_isVacant (.inr (.inr (.inr rfl)))
    · exact h _ w (.entry he hleads)
  · rintro ⟨hne, hfull⟩ path w hleads
    cases hleads with
    | here => simpa [IsVacant] using hne
    | entry he hleads => exact hfull _ he _ w hleads

/-- A leaf goes if it is empty, and stays as it is otherwise. -/
theorem prune?_leaf {v : Value} (hitems : v.items? = none) (hentries : v.entries? = none) :
    v.prune? = if v.IsVacant then none else some v := by
  cases v with
  | list _ => cases hitems
  | dict _ => cases hentries
  | _ => simp [prune?, IsVacant]

/-- What is left has nothing empty in it. -/
theorem full_of_prune? {v w : Value} (h : v.prune? = some w) : w.Full := by
  induction v using parts_induction generalizing w with
  | leaf v hitems hentries =>
    rw [prune?_leaf hitems hentries] at h
    split at h
    · cases h
    · rename_i hv
      exact Option.some.inj h ▸ full_leaf hitems hentries hv
  | list items ih =>
    obtain ⟨hne, rfl⟩ := prune?_list_eq_some h
    refine full_list_iff.mpr ⟨hne, fun w hw => ?_⟩
    obtain ⟨v, hv, hprune⟩ := mem_pruneItems.mp hw
    exact ih v hv hprune
  | dict entries ih =>
    obtain ⟨hne, rfl⟩ := prune?_dict_eq_some h
    refine full_dict_iff.mpr ⟨hne, fun e he => ?_⟩
    obtain ⟨v, hv, hprune⟩ := mem_pruneEntries.mp he
    exact ih (e.1, v) hv hprune

/-- Pruning leaves a full value as it is. -/
theorem Full.prune?_eq_self {v : Value} (h : v.Full) : v.prune? = some v := by
  induction v using parts_induction with
  | leaf v hitems hentries => rw [prune?_leaf hitems hentries, if_neg h.not_isVacant]
  | list items ih =>
    obtain ⟨hne, hfull⟩ := full_list_iff.mp h
    have hself := pruneItems_eq_self fun v hv => ih v hv (hfull v hv)
    rw [prune?_list (by rwa [hself]), hself]
  | dict entries ih =>
    obtain ⟨hne, hfull⟩ := full_dict_iff.mp h
    have hself := pruneEntries_eq_self fun e he => ih e he (hfull e he)
    rw [prune?_dict (by rwa [hself]), hself]

/-! ## Leaves -/

mutual
/-- The leaves that are not empty, in document order, each with the keys above it.  Positions in
lists are not recorded. -/
def leaves (above : List String) : Value → List (List String × Value)
  | .null => []
  | .bool b => [(above, .bool b)]
  | .num n => [(above, .num n)]
  | .str s => if s = "" then [] else [(above, .str s)]
  | .list items => itemLeaves above items
  | .dict entries => entryLeaves above entries
/-- Those in the items of a list. -/
def itemLeaves (above : List String) : List Value → List (List String × Value)
  | [] => []
  | v :: vs => leaves above v ++ itemLeaves above vs
/-- Those in the entries of a mapping. -/
def entryLeaves (above : List String) : List (String × Value) → List (List String × Value)
  | [] => []
  | (key, v) :: es => leaves (above ++ [key]) v ++ entryLeaves above es
end

theorem leaves_leaf {v : Value} (hitems : v.items? = none) (hentries : v.entries? = none)
    (above : List String) : v.leaves above = if v.IsVacant then [] else [(above, v)] := by
  cases v with
  | list _ => cases hitems
  | dict _ => cases hentries
  | _ => simp [leaves, IsVacant]

theorem Full.leaves_ne_nil {v : Value} (h : v.Full) (above : List String) :
    v.leaves above ≠ [] := by
  induction v using parts_induction generalizing above with
  | leaf v hitems hentries =>
    rw [leaves_leaf hitems hentries, if_neg h.not_isVacant]
    exact List.cons_ne_nil _ _
  | list items ih =>
    obtain ⟨hne, hfull⟩ := full_list_iff.mp h
    obtain ⟨v, vs, rfl⟩ := List.exists_cons_of_ne_nil hne
    have hfirst := ih v List.mem_cons_self (hfull v List.mem_cons_self) above
    rw [leaves, itemLeaves]
    exact List.append_ne_nil_of_left_ne_nil hfirst _
  | dict entries ih =>
    obtain ⟨hne, hfull⟩ := full_dict_iff.mp h
    obtain ⟨⟨key, v⟩, es, rfl⟩ := List.exists_cons_of_ne_nil hne
    have hfirst := ih _ List.mem_cons_self (hfull _ List.mem_cons_self) (above ++ [key])
    rw [leaves, entryLeaves]
    exact List.append_ne_nil_of_left_ne_nil hfirst _

mutual
theorem leaves_prune (above : List String) : ∀ v : Value, v.prune.leaves above = v.leaves above
  | .null => rfl
  | .bool _ => rfl
  | .num _ => rfl
  | .str s => by
    rw [prune, prune?, leaves]
    split
    · rfl
    · rename_i hs
      exact if_neg hs
  | .list items => by
    have h := itemLeaves_prune above items
    rw [prune, prune?, leaves, ← h]
    cases pruneItems items <;> rfl
  | .dict entries => by
    have h := entryLeaves_prune above entries
    rw [prune, prune?, leaves, ← h]
    cases pruneEntries entries <;> rfl
theorem itemLeaves_prune (above : List String) :
    ∀ items : List Value, itemLeaves above (pruneItems items) = itemLeaves above items
  | [] => rfl
  | v :: vs => by
    have hv := leaves_prune above v
    have hvs := itemLeaves_prune above vs
    rw [pruneItems, itemLeaves, ← hv, ← hvs, prune]
    cases v.prune? <;> rfl
theorem entryLeaves_prune (above : List String) : ∀ entries : List (String × Value),
    entryLeaves above (pruneEntries entries) = entryLeaves above entries
  | [] => rfl
  | (key, v) :: es => by
    have hv := leaves_prune (above ++ [key]) v
    have hes := entryLeaves_prune above es
    rw [pruneEntries, entryLeaves, ← hv, ← hes, prune]
    cases v.prune? <;> rfl
end

/-- Nothing is left of a value exactly when it has no leaf. -/
theorem prune?_eq_none_iff {v : Value} (above : List String) :
    v.prune? = none ↔ v.leaves above = [] := by
  rw [← leaves_prune above v, prune]
  cases h : v.prune? with
  | none => exact iff_of_true rfl rfl
  | some w => exact iff_of_false (by simp) ((full_of_prune? h).leaves_ne_nil above)

end Value

/-! ## Leaving out parts -/

mutual
/-- The second value is the first with some items and entries left out, at any depth.  Those that
stay keep their keys and their order. -/
inductive Thinned : Value → Value → Prop where
  | leaf {v : Value} : v.items? = none → v.entries? = none → Thinned v v
  | list {vs ws : List Value} : ThinnedItems vs ws → Thinned (.list vs) (.list ws)
  | dict {es ws : List (String × Value)} : ThinnedEntries es ws → Thinned (.dict es) (.dict ws)
inductive ThinnedItems : List Value → List Value → Prop where
  | nil : ThinnedItems [] []
  | keep {v w : Value} {vs ws : List Value} :
      Thinned v w → ThinnedItems vs ws → ThinnedItems (v :: vs) (w :: ws)
  | drop (v : Value) {vs ws : List Value} : ThinnedItems vs ws → ThinnedItems (v :: vs) ws
inductive ThinnedEntries : List (String × Value) → List (String × Value) → Prop where
  | nil : ThinnedEntries [] []
  | keep (key : String) {v w : Value} {es ws : List (String × Value)} :
      Thinned v w → ThinnedEntries es ws → ThinnedEntries ((key, v) :: es) ((key, w) :: ws)
  | drop (key : String) (v : Value) {es ws : List (String × Value)} :
      ThinnedEntries es ws → ThinnedEntries ((key, v) :: es) ws
end

open Value

mutual
/-- What is left is the value thinned out. -/
theorem thinned_of_prune? : ∀ {v w : Value}, v.prune? = some w → Thinned v w
  | .null, _, h => by cases h
  | .bool _, _, h => Option.some.inj h ▸ .leaf rfl rfl
  | .num _, _, h => Option.some.inj h ▸ .leaf rfl rfl
  | .str s, _, h => by
    rw [prune?_leaf rfl rfl] at h
    split at h
    · cases h
    · exact Option.some.inj h ▸ .leaf rfl rfl
  | .list items, _, h => by
    obtain ⟨_, rfl⟩ := prune?_list_eq_some h
    exact .list (thinnedItems_pruneItems items)
  | .dict entries, _, h => by
    obtain ⟨_, rfl⟩ := prune?_dict_eq_some h
    exact .dict (thinnedEntries_pruneEntries entries)
theorem thinnedItems_pruneItems : ∀ items : List Value, ThinnedItems items (pruneItems items)
  | [] => by
    rw [pruneItems]
    exact .nil
  | v :: vs => by
    have hvs := thinnedItems_pruneItems vs
    rw [pruneItems_cons]
    cases hv : v.prune? with
    | none => exact .drop v hvs
    | some w => exact .keep (thinned_of_prune? hv) hvs
theorem thinnedEntries_pruneEntries : ∀ entries : List (String × Value),
    ThinnedEntries entries (pruneEntries entries)
  | [] => by
    rw [pruneEntries]
    exact .nil
  | (key, v) :: es => by
    have hes := thinnedEntries_pruneEntries es
    rw [pruneEntries_cons]
    cases hv : v.prune? with
    | none => exact .drop key v hes
    | some w => exact .keep key (thinned_of_prune? hv) hes
end

/-! ## No other value -/

mutual
theorem Thinned.leaves_sublist {above : List String} : ∀ {v w : Value}, Thinned v w →
    (w.leaves above).Sublist (v.leaves above)
  | _, _, .leaf _ _ => .refl _
  | _, _, .list h => h.leaves_sublist
  | _, _, .dict h => h.leaves_sublist
theorem ThinnedItems.leaves_sublist {above : List String} : ∀ {vs ws : List Value},
    ThinnedItems vs ws → (itemLeaves above ws).Sublist (itemLeaves above vs)
  | _, _, .nil => .refl _
  | _, _, .keep h hrest => h.leaves_sublist.append hrest.leaves_sublist
  | _, _, .drop _ hrest => hrest.leaves_sublist.trans (List.sublist_append_right _ _)
theorem ThinnedEntries.leaves_sublist {above : List String} : ∀ {es ws : List (String × Value)},
    ThinnedEntries es ws → (entryLeaves above ws).Sublist (entryLeaves above es)
  | _, _, .nil => .refl _
  | _, _, .keep _ h hrest => h.leaves_sublist.append hrest.leaves_sublist
  | _, _, .drop _ _ hrest => hrest.leaves_sublist.trans (List.sublist_append_right _ _)
end

theorem append_inj_of_sublist {α : Type} {a b c d : List α} (hac : a.Sublist c) (hbd : b.Sublist d)
    (h : a ++ b = c ++ d) : a = c ∧ b = d := by
  have hlength := congrArg List.length h
  rw [List.length_append, List.length_append] at hlength
  have hac := hac.length_le
  have hbd := hbd.length_le
  exact List.append_inj h (by omega)

-- a part that was left out adds no leaf, so pruning drops it; a part that was kept has all its
-- leaves, so the argument goes on below it
mutual
theorem Thinned.prune?_eq_some {above : List String} : ∀ {v w : Value}, Thinned v w → w.Full →
    w.leaves above = v.leaves above → v.prune? = some w
  | _, _, .leaf _ _, hfull, _ => hfull.prune?_eq_self
  | _, _, .list h, hfull, hleaves => by
    obtain ⟨hne, hitems⟩ := full_list_iff.mp hfull
    obtain rfl := h.pruneItems_eq hitems hleaves
    exact prune?_list hne
  | _, _, .dict h, hfull, hleaves => by
    obtain ⟨hne, hentries⟩ := full_dict_iff.mp hfull
    obtain rfl := h.pruneEntries_eq hentries hleaves
    exact prune?_dict hne
theorem ThinnedItems.pruneItems_eq {above : List String} : ∀ {vs ws : List Value},
    ThinnedItems vs ws → (∀ w ∈ ws, w.Full) → itemLeaves above ws = itemLeaves above vs →
      pruneItems vs = ws
  | _, _, .nil, _, _ => by rw [pruneItems]
  | _, _, .keep h hrest, hfull, hleaves => by
    obtain ⟨hfirst, hothers⟩ :=
      append_inj_of_sublist h.leaves_sublist hrest.leaves_sublist hleaves
    obtain ⟨hw, hws⟩ := List.forall_mem_cons.mp hfull
    rw [pruneItems_cons, h.prune?_eq_some hw hfirst, hrest.pruneItems_eq hws hothers]
    rfl
  | _, _, .drop v hrest, hfull, hleaves => by
    obtain ⟨hnone, hothers⟩ :=
      append_inj_of_sublist (List.nil_sublist _) hrest.leaves_sublist hleaves
    rw [pruneItems_cons, (prune?_eq_none_iff above).mpr hnone.symm,
      hrest.pruneItems_eq hfull hothers]
    rfl
theorem ThinnedEntries.pruneEntries_eq {above : List String} : ∀ {es ws : List (String × Value)},
    ThinnedEntries es ws → (∀ e ∈ ws, e.2.Full) → entryLeaves above ws = entryLeaves above es →
      pruneEntries es = ws
  | _, _, .nil, _, _ => by rw [pruneEntries]
  | _, _, .keep key h hrest, hfull, hleaves => by
    obtain ⟨hfirst, hothers⟩ :=
      append_inj_of_sublist h.leaves_sublist hrest.leaves_sublist hleaves
    obtain ⟨hw, hws⟩ := List.forall_mem_cons.mp hfull
    rw [pruneEntries_cons, h.prune?_eq_some hw hfirst, hrest.pruneEntries_eq hws hothers]
    rfl
  | _, _, .drop key v hrest, hfull, hleaves => by
    obtain ⟨hnone, hothers⟩ :=
      append_inj_of_sublist (List.nil_sublist _) hrest.leaves_sublist hleaves
    rw [pruneEntries_cons, (prune?_eq_none_iff (above ++ [key])).mpr hnone.symm,
      hrest.pruneEntries_eq hfull hothers]
    rfl
end

/-- **Pruning takes exactly what is empty.**  What it leaves of a value is null, or nothing in it is
empty; it has the leaves of the value, in order and under the same keys; it is null exactly when the
value has no leaf; what stays keeps its order; and pruning it again changes nothing.  No other value
will do: a full value that is the given one thinned out and has its leaves is the pruned value. -/
theorem prune_exact (v : Value) :
    (v.prune = .null ∨ v.prune.Full) ∧
    v.prune.leaves [] = v.leaves [] ∧
    (v.prune = .null ↔ v.leaves [] = []) ∧
    (v.prune = .null ∨ Thinned v v.prune) ∧
    v.prune.prune = v.prune ∧
    (∀ w : Value, w.Full → Thinned v w → w.leaves [] = v.leaves [] → v.prune = w) := by
  have hunique : ∀ w : Value, w.Full → Thinned v w → w.leaves [] = v.leaves [] → v.prune = w := by
    intro w hfull hthinned hleaves
    rw [prune, hthinned.prune?_eq_some hfull hleaves]
    rfl
  cases h : v.prune? with
  | none =>
    have hprune : v.prune = .null := by rw [prune, h]; rfl
    have hnil : v.leaves [] = [] := (prune?_eq_none_iff []).mp h
    exact ⟨.inl hprune, leaves_prune [] v, iff_of_true hprune hnil, .inl hprune,
      by rw [hprune]; rfl, hunique⟩
  | some w =>
    have hprune : v.prune = w := by rw [prune, h]; rfl
    have hfull : w.Full := full_of_prune? h
    have hnull : v.prune ≠ .null := by
      rw [hprune]
      exact fun hw => hfull.not_isVacant (.inl hw)
    have hleaf : v.leaves [] ≠ [] := by
      rw [← leaves_prune [] v, hprune]
      exact hfull.leaves_ne_nil []
    have hagain : w.prune = w := by rw [prune, hfull.prune?_eq_self]; rfl
    exact ⟨.inr (hprune ▸ hfull), leaves_prune [] v, iff_of_false hnull hleaf,
      .inr (hprune ▸ thinned_of_prune? h), by rw [hprune, hagain], hunique⟩

example :
    (Value.dict
      [ ("a", .list [.dict [("b", .list [.null]), ("c", .dict [("d", .str "")])], .num (.int 0)]),
        ("e", .list [.list [.dict []], .null]),
        ("f", .bool false) ]).prune
      = .dict [("a", .list [.num (.int 0)]), ("f", .bool false)] := by decide

end RoutePolicy
