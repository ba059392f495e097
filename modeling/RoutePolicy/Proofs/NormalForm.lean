import RoutePolicy.Proofs.Validation
import Mathlib.Data.List.Forall2
import Mathlib.Data.Set.List

/-!
# Facts are in normal form

A check rewrites leaves into their declared form and lets null pass anywhere; pruning takes out what
is empty, bottom-up.  The facts that come out of both are strict values of the schema (`Conforms`):
declared keys only, every leaf in its declared form, and nothing empty at any depth.

* `Conforms.validate`, `Conforms.prune?`   a strict value passes the check and the pruning unchanged;
* `settles_validate`     pruning leaves nothing of a value and nothing of its checked form, or a value
                         whose checked form is what it leaves of the other, and strict;
* `validate_prune`       so the check and the pruning can change places;
* `finish_of_conforms`   and strict documents are their own facts.
-/

namespace RoutePolicy

/-! ## Strict values -/

/-- A value of a schema in its declared form, with nothing empty in it. -/
inductive Conforms : Schema → Value → Prop where
  /-- a text that is not empty -/
  | str {s : String} : s ≠ "" → Conforms .str (.str s)
  /-- an integer -/
  | int (n : Int) : Conforms .int (.num (.int n))
  /-- a truth value -/
  | bool (b : Bool) : Conforms .bool (.bool b)
  /-- a listed word that is not empty -/
  | choice {choices : List String} {s : String} :
      s ∈ choices → s ≠ "" → Conforms (.choice choices) (.str s)
  /-- a list of strict values that is not empty -/
  | list {item : Schema} {items : List Value} :
      items ≠ [] → (∀ v ∈ items, Conforms item v) → Conforms (.list item) (.list items)
  /-- a mapping that is not empty, with declared keys and a strict value at each -/
  | dict {schema : Schema} {fields : List (String × Schema)} {entries : List (String × Value)} :
      schema.fields? = some fields → entries ≠ [] →
      (∀ e ∈ entries, (Entries.get? e.1 fields).isSome = true) →
      (∀ e ∈ entries, ∀ field, Entries.get? e.1 fields = some field → Conforms field e.2) →
      Conforms schema (.dict entries)

/-! ## Parts that are checked one by one -/

namespace Schema

theorem validateItems_of_forall₂ {item : Schema} {vs ws : List Value}
    (h : List.Forall₂ (fun v w => ∀ path, item.validate path v = .ok w) vs ws) (path : Path)
    (i : Nat) : validateItems item path i vs = .ok ws := by
  induction h generalizing i with
  | nil => rw [validateItems]
  | cons hv _ ih =>
    rw [validateItems_cons, hv, ih]
    rfl

theorem validateEntries_of_forall₂ {fields : List (String × Schema)}
    {es ws : List (String × Value)}
    (h : List.Forall₂ (fun e w => e.1 = w.1 ∧ ∃ field, Entries.get? e.1 fields = some field ∧
      ∀ path, field.validate path e.2 = .ok w.2) es ws) (path : Path) :
    validateEntries fields path es = .ok ws := by
  induction h with
  | nil => rw [validateEntries]
  | @cons e w es ws he _ ih =>
    obtain ⟨key, v⟩ := e
    obtain ⟨rfl, field, hfield, hv⟩ := he
    rw [validateEntries_cons hfield, hv, ih]
    rfl

theorem validate_list {schema item : Schema} (hitem : schema.item? = some item) {path : Path}
    {vs ws : List Value} (h : validateItems item path 0 vs = .ok ws) :
    schema.validate path (.list vs) = .ok (.list ws) := by
  simp only [validate, hitem, h, Except.map]

theorem validate_dict {schema : Schema} {fields : List (String × Schema)}
    (hfields : schema.fields? = some fields) {path : Path} {es ws : List (String × Value)}
    (h : validateEntries fields path es = .ok ws) :
    schema.validate path (.dict es) = .ok (.dict ws) := by
  simp only [validate, hfields, h, Except.map]

end Schema

namespace Value

theorem prune?_list {items : List Value} (h : pruneItems items ≠ []) :
    prune? (.list items) = some (.list (pruneItems items)) := by
  rw [prune?]
  cases hitems : pruneItems items with
  | nil => exact absurd hitems h
  | cons v vs => rfl

theorem pruneItems_eq_self {items : List Value} (h : ∀ v ∈ items, v.prune? = some v) :
    pruneItems items = items := by
  induction items with
  | nil => rw [pruneItems]
  | cons v vs ih =>
    rw [pruneItems_cons, h v List.mem_cons_self, ih fun w hw => h w (List.mem_cons_of_mem _ hw)]
    rfl

theorem pruneEntries_eq_self {entries : List (String × Value)}
    (h : ∀ e ∈ entries, e.2.prune? = some e.2) : pruneEntries entries = entries := by
  induction entries with
  | nil => rw [pruneEntries]
  | cons e es ih =>
    obtain ⟨key, v⟩ := e
    rw [pruneEntries_cons, h _ List.mem_cons_self, ih fun w hw => h w (List.mem_cons_of_mem _ hw)]
    rfl

end Value

namespace Conforms

/-- Pruning leaves a strict value as it is. -/
theorem prune? {schema : Schema} {v : Value} (h : Conforms schema v) : v.prune? = some v := by
  induction h with
  | str hne => rw [Value.prune?, if_neg hne]
  | int n => rw [Value.prune?]
  | bool b => rw [Value.prune?]
  | choice _ hne => rw [Value.prune?, if_neg hne]
  | list hne _ ih =>
    have hself := Value.pruneItems_eq_self ih
    rw [Value.prune?_list (by rwa [hself]), hself]
  | @dict schema fields entries _ hne hsome _ ih =>
    have hself : Value.pruneEntries entries = entries := by
      refine Value.pruneEntries_eq_self fun e he => ?_
      obtain ⟨field, hfield⟩ := Option.isSome_iff_exists.mp (hsome e he)
      exact ih e he field hfield
    rw [Value.prune?_dict (by rwa [hself]), hself]

/-- The check leaves a strict value as it is. -/
theorem validate {schema : Schema} {v : Value} (h : Conforms schema v) :
    ∀ path, schema.validate path v = .ok v := by
  induction h with
  | str _ => exact fun _ => rfl
  | int n => exact fun _ => rfl
  | bool b => exact fun _ => rfl
  | choice hmem _ =>
    intro path
    simp only [Schema.validate, Schema.validateLeaf, hmem, if_true]
  | list _ _ ih =>
    intro path
    exact Schema.validate_list rfl (Schema.validateItems_of_forall₂ (List.forall₂_same.mpr ih) path 0)
  | @dict schema fields entries hfields _ hsome _ ih =>
    intro path
    refine Schema.validate_dict hfields (Schema.validateEntries_of_forall₂ ?_ path)
    refine List.forall₂_same.mpr fun e he => ⟨rfl, ?_⟩
    obtain ⟨field, hfield⟩ := Option.isSome_iff_exists.mp (hsome e he)
    exact ⟨field, hfield, ih e he field hfield⟩

end Conforms

/-! ## Numbers have a text -/

theorem Decimal.magnitude_ne_nil (d : Decimal) : d.magnitude ≠ [] := by
  simp only [magnitude]
  split_ifs
  · simp
  · simp
  · simp
  · simp
  · split <;> simp
  · split <;> simp

theorem Number.text_ne_empty (n : Number) : n.text ≠ "" := by
  have hne : ∀ cs : List Char, cs ≠ [] → String.ofList cs ≠ "" := by
    intro cs hcs h
    apply hcs
    rw [← String.toList_ofList (l := cs), h]
    rfl
  cases n with
  | int n =>
    apply hne
    split
    · simp
    · exact Nat.toDigits_ne_nil
  | decimal d =>
    apply hne
    split
    · simp
    · exact d.magnitude_ne_nil

/-! ## Checking and pruning together -/

/-- `w` is the declared form of `v` wherever it stands, and strict. -/
structure Settled (schema : Schema) (v w : Value) : Prop where
  validate : ∀ path, schema.validate path v = .ok w
  conforms : Conforms schema w

/-- Pruning leaves nothing of `v` and nothing of `w`, or values of which the second is the declared
form of the first, and strict. -/
def Settles (schema : Schema) (v w : Value) : Prop :=
  Option.Rel (Settled schema) v.prune? w.prune?

/-- An entry that keeps its key and whose value is settled. -/
def SettledEntry (fields : List (String × Schema)) (e w : String × Value) : Prop :=
  e.1 = w.1 ∧ ∃ field, Entries.get? e.1 fields = some field ∧ Settled field e.2 w.2

section
variable {schema : Schema} {path : Path} {v w : Value}

theorem conforms_validateLeaf (hv : v.prune? = some v) (h : schema.validateLeaf path v = .ok w) :
    Conforms schema w := by
  have hne : ∀ {s : String}, v = .str s → s ≠ "" := by
    rintro s rfl rfl
    cases hv
  unfold Schema.validateLeaf at h
  split at h
  · -- a text where a text is declared
    rw [← Except.ok.inj h]
    exact .str (hne rfl)
  · -- a number where a text is declared
    rw [← Except.ok.inj h]
    exact .str (Number.text_ne_empty _)
  · rw [← Except.ok.inj h]
    exact .int _
  · -- a text where an integer is declared
    split at h
    · rw [← Except.ok.inj h]
      exact .int _
    · cases h
  · rw [← Except.ok.inj h]
    exact .bool _
  · -- a text where a truth value is declared
    split at h
    · rw [← Except.ok.inj h]
      exact .bool true
    · split at h
      · rw [← Except.ok.inj h]
        exact .bool false
      · cases h
  · -- a text where words are listed
    split at h
    · rename_i hmem
      rw [← Except.ok.inj h]
      exact .choice hmem (hne rfl)
    · cases h
  · cases h

theorem validate_empty (h : schema.validate path (.str "") = .ok w) : w = .str "" := by
  cases schema with
  | str => exact (Except.ok.inj h).symm
  | choice choices =>
    simp only [Schema.validate, Schema.validateLeaf] at h
    split at h
    · exact (Except.ok.inj h).symm
    · cases h
  | _ => cases h

/-- a leaf that pruning leaves -/
theorem settles_leaf (hv : v.prune? = some v) (hleaf : schema.validateLeaf path v = .ok w)
    (h : schema.validate path v = .ok w) : Settles schema v w := by
  have hconforms := conforms_validateLeaf hv hleaf
  rw [Settles, hv, hconforms.prune?]
  exact .some ⟨fun other => Schema.validate_elsewhere other h, hconforms⟩

theorem settles_str {s : String} (h : schema.validate path (.str s) = .ok w) :
    Settles schema (.str s) w := by
  by_cases hs : s = ""
  · subst hs
    rw [validate_empty h]
    exact .none
  · exact settles_leaf (by rw [Value.prune?, if_neg hs]) h h

theorem forall_mem_of_forall₂ {α : Type} {R : α → α → Prop} {P : α → Prop} {vs ws : List α}
    (h : List.Forall₂ R vs ws) (hR : ∀ v w, R v w → P w) : ∀ w ∈ ws, P w := by
  have hflip : List.Forall₂ (fun w v => P w ∧ R v w) ws vs :=
    h.flip.imp fun w v hvw => ⟨hR v w hvw, hvw⟩
  exact ((List.forall₂_and_left _ _).mp hflip).1

theorem settles_list {item : Schema} (hitem : schema.item? = some item) {vs ws : List Value}
    (h : List.Forall₂ (Settled item) (Value.pruneItems vs) (Value.pruneItems ws)) :
    Settles schema (.list vs) (.list ws) := by
  obtain rfl : schema = .list item := by
    cases schema with
    | list item' => rw [Option.some.inj hitem]
    | _ => cases hitem
  have hnil : Value.pruneItems vs = [] ↔ Value.pruneItems ws = [] := by
    rw [← List.length_eq_zero_iff, h.length_eq, List.length_eq_zero_iff]
  by_cases hws : Value.pruneItems ws = []
  · simp only [Settles, Value.prune?, hnil.mpr hws, hws]
    exact .none
  · rw [Settles, Value.prune?_list (mt hnil.mp hws), Value.prune?_list hws]
    refine .some ⟨fun other => Schema.validate_list hitem ?_, .list hws ?_⟩
    · exact Schema.validateItems_of_forall₂ (h.imp fun _ _ hvw => hvw.validate) other 0
    · exact forall_mem_of_forall₂ h fun _ _ hvw => hvw.conforms

theorem settles_dict {fields : List (String × Schema)} (hfields : schema.fields? = some fields)
    {es ws : List (String × Value)}
    (h : List.Forall₂ (SettledEntry fields) (Value.pruneEntries es) (Value.pruneEntries ws)) :
    Settles schema (.dict es) (.dict ws) := by
  have hnil : Value.pruneEntries es = [] ↔ Value.pruneEntries ws = [] := by
    rw [← List.length_eq_zero_iff, h.length_eq, List.length_eq_zero_iff]
  by_cases hws : Value.pruneEntries ws = []
  · simp only [Settles, Value.prune?, hnil.mpr hws, hws]
    exact .none
  · rw [Settles, Value.prune?_dict (mt hnil.mp hws), Value.prune?_dict hws]
    have hentries : ∀ w ∈ Value.pruneEntries ws, ∃ field,
        Entries.get? w.1 fields = some field ∧ Conforms field w.2 := by
      refine forall_mem_of_forall₂ h ?_
      rintro e w ⟨hkey, field, hfield, hsettled⟩
      exact ⟨field, hkey ▸ hfield, hsettled.conforms⟩
    refine .some ⟨fun other => Schema.validate_dict hfields ?_, .dict hfields hws ?_ ?_⟩
    · refine Schema.validateEntries_of_forall₂ (h.imp ?_) other
      rintro e w ⟨hkey, field, hfield, hsettled⟩
      exact ⟨hkey, field, hfield, hsettled.validate⟩
    · intro w hw
      obtain ⟨field, hfield, _⟩ := hentries w hw
      rw [hfield]
      rfl
    · intro w hw field hfield
      obtain ⟨field', hfield', hconforms⟩ := hentries w hw
      rw [hfield] at hfield'
      exact Option.some.inj hfield' ▸ hconforms

end

/-! ## Whole documents -/

open Value in
mutual
theorem settles_validate {schema : Schema} {path : Path} :
    ∀ {v w : Value}, schema.validate path v = .ok w → Settles schema v w
  | .null, _, h => by
    rw [← Except.ok.inj h]
    exact .none
  | .bool b, _, h => settles_leaf (by rw [prune?]) h h
  | .num n, _, h => settles_leaf (by rw [prune?]) h h
  | .str s, _, h => settles_str h
  | .list items, _, h => by
    obtain ⟨item, ws, hitem, hws, rfl⟩ := Schema.validate_list_ok h
    exact settles_list hitem (settles_validateItems hws)
  | .dict entries, _, h => by
    obtain ⟨fields, ws, hfields, hws, rfl⟩ := Schema.validate_dict_ok h
    exact settles_dict hfields (settles_validateEntries hws)
theorem settles_validateItems {item : Schema} {path : Path} {i : Nat} :
    ∀ {vs ws : List Value}, Schema.validateItems item path i vs = .ok ws →
      List.Forall₂ (Settled item) (pruneItems vs) (pruneItems ws)
  | [], _, h => by
    rw [← Except.ok.inj h, pruneItems]
    exact .nil
  | v :: vs, _, h => by
    obtain ⟨w, rest, hw, hrest, rfl⟩ := Schema.validateItems_cons_ok h
    have hhead : Option.Rel (Settled item) v.prune? w.prune? := settles_validate hw
    have htail := settles_validateItems hrest
    rw [pruneItems, pruneItems]
    generalize v.prune? = left, w.prune? = right at hhead
    cases hhead with
    | none => exact htail
    | some hsettled => exact .cons hsettled htail
theorem settles_validateEntries {fields : List (String × Schema)} {path : Path} :
    ∀ {es ws : List (String × Value)}, Schema.validateEntries fields path es = .ok ws →
      List.Forall₂ (SettledEntry fields) (pruneEntries es) (pruneEntries ws)
  | [], _, h => by
    rw [← Except.ok.inj h, pruneEntries]
    exact .nil
  | (key, v) :: es, _, h => by
    obtain ⟨field, w, rest, hfield, hw, hrest, rfl⟩ := Schema.validateEntries_cons_ok h
    have hhead : Option.Rel (Settled field) v.prune? w.prune? := settles_validate hw
    have htail := settles_validateEntries hrest
    rw [pruneEntries, pruneEntries]
    generalize v.prune? = left, w.prune? = right at hhead
    cases hhead with
    | none => exact htail
    | some hsettled => exact .cons ⟨rfl, field, hfield, hsettled⟩ htail
end

theorem validate_prune {schema : Schema} {path : Path} {v w : Value}
    (h : schema.validate path v = .ok w) : schema.validate path v.prune = .ok w.prune := by
  have hsettles : Option.Rel (Settled schema) v.prune? w.prune? := settles_validate h
  rw [Value.prune, Value.prune]
  generalize v.prune? = left, w.prune? = right at hsettles
  cases hsettles with
  | none => rfl
  | some hsettled => exact hsettled.validate path

/-! ## Facts -/

theorem Conforms.exists_dict {schema : Schema} {fields : List (String × Schema)} {v : Value}
    (hfields : schema.fields? = some fields) (h : Conforms schema v) :
    ∃ entries, v = .dict entries := by
  cases h with
  | dict _ _ _ _ => exact ⟨_, rfl⟩
  | _ => cases hfields

theorem finish_of_conforms {maps : List (List (String × Value))}
    (h : ∀ entries ∈ maps, Conforms Schema.routeMap (.dict entries)) :
    finish maps = .ok (maps.map .dict) := by
  have hconforms : ∀ v ∈ maps.map Value.dict, Conforms Schema.routeMap v := by
    intro v hv
    obtain ⟨entries, hentries, rfl⟩ := List.mem_map.mp hv
    exact h entries hentries
  refine finish_eq_ok_iff.mpr ⟨maps.map .dict, ?_, ?_⟩
  · exact Schema.validateItems_of_forall₂
      (List.forall₂_same.mpr fun v hv => (hconforms v hv).validate) [] 0
  · exact Value.pruneItems_eq_self fun v hv => (hconforms v hv).prune?

theorem conforms_of_finish {documents : List (List (String × Value))} {facts : List Value}
    (h : finish documents = .ok facts) : ∀ fact ∈ facts, Conforms Schema.routeMap fact := by
  obtain ⟨values, hvalues, rfl⟩ := finish_eq_ok_iff.mp h
  exact forall_mem_of_forall₂ (settles_validateItems hvalues) fun _ _ hsettled => hsettled.conforms

/-- **Finishing projects documents onto a normal form.**  When documents are accepted, every fact is
a strict policy; taken as documents again, the facts are accepted and come back as they are; and the
check and the pruning can change places: the pruned documents are accepted, and what the check makes
of them is what pruning leaves of the checked documents, with the facts as its items. -/
theorem finish_normalForm {documents : List (List (String × Value))} {facts : List Value}
    (h : finish documents = .ok facts) :
    (∀ fact ∈ facts, Conforms Schema.routeMap fact) ∧
    (∃ maps, facts = maps.map Value.dict ∧ finish maps = .ok facts) ∧
    (∃ checked, Schema.routeMaps.validate [] (.list (documents.map .dict)) = .ok checked ∧
      Schema.routeMaps.validate [] (Value.list (documents.map .dict)).prune = .ok checked.prune ∧
      checked.prune.items?.getD [] = facts) := by
  have hconforms := conforms_of_finish h
  refine ⟨hconforms, ?_, ?_⟩
  · obtain ⟨maps, rfl⟩ : facts ∈ Set.range (List.map Value.dict) := by
      rw [Set.range_list_map]
      intro fact hfact
      obtain ⟨entries, rfl⟩ := (hconforms fact hfact).exists_dict rfl
      exact ⟨entries, rfl⟩
    refine ⟨maps, rfl, finish_of_conforms fun entries hentries => ?_⟩
    exact hconforms _ (List.mem_map_of_mem hentries)
  · rw [finish] at h
    split at h
    · cases h
    · rename_i checked hchecked
      exact ⟨checked, hchecked, validate_prune hchecked, Except.ok.inj h⟩

/-- Two documents, of which the second says nothing and the first has a number for its name, leaves
that are still texts, and empty parts at several depths. -/
def unfinished : List (List (String × Value)) :=
  [ [ ("name", .num (.int 7)),
      ("global", .dict [("set", .dict [("weight", .str " +5 "), ("tag", .null)])]),
      ("if", .dict
        [ ("conditions", .list
            [ .dict [("community", .dict [])],
              .dict [("med", .dict [("match", .str "eq"), ("input_number", .str "10")])] ]),
          ("drop", .str "true") ]),
      ("elif", .list []),
      ("else", .dict
        [ ("global", .dict [("apply", .list [.null, .dict [("route_policy", .str "")]])]),
          ("else", .dict [("global", .dict [("pass", .bool false)])]) ]) ],
    [("name", .str ""), ("else", .dict [("else", .null)])] ]

def finished : List Value :=
  [ .dict
    [ ("name", .str "7"),
      ("global", .dict [("set", .dict [("weight", .num (.int 5))])]),
      ("if", .dict
        [ ("conditions", .list
            [.dict [("med", .dict [("match", .str "eq"), ("input_number", .num (.int 10))])]]),
          ("drop", .bool true) ]),
      ("else", .dict [("else", .dict [("global", .dict [("pass", .bool false)])])]) ] ]

theorem finish_unfinished :
    finish unfinished = .ok finished ∧
    (∀ fact ∈ finished, Conforms Schema.routeMap fact) ∧
    (∃ maps, finished = maps.map Value.dict ∧ finish maps = .ok finished) ∧
    (∃ checked, Schema.routeMaps.validate [] (.list (unfinished.map .dict)) = .ok checked ∧
      Schema.routeMaps.validate [] (Value.list (unfinished.map .dict)).prune = .ok checked.prune ∧
      checked.prune.items?.getD [] = finished) := by
  have hfinish : finish unfinished = .ok finished := ok_of_toOption (by decide +kernel)
  exact ⟨hfinish, finish_normalForm hfinish⟩

end RoutePolicy
