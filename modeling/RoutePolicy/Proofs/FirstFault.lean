import RoutePolicy.Proofs.NormalForm

/-!
# The first fault

`Schema.validate` stops at the first fault it meets.  Here all faults of a document are listed, by a
walk that never stops (`Schema.visits`) and a test of each place on its own (`Visit.fault?`), and the
check is shown to return the first of the list.

* `reached_visits`        the path of a place on the walk leads to the value there;
* `readInteger?_iff`      which texts stand for an integer;
* `Coerces`               what a check may change: leaves, and only into their declared form;
* `reports_validate`      a check fails with the first fault on the walk, or there is none and it
                          returns a coerced value;
* `validate_of_coerces`   and there is no other coerced value.
-/

namespace RoutePolicy

/-! ## The walk -/

/-- A place on the walk: the path to it, its declared type, if its key is declared at all, and the
value there. -/
structure Visit where
  path : Path
  schema? : Option Schema
  value : Value

namespace Schema

-- below a value that is no mapping or list where one is declared, or the other way round, nothing is
-- declared, and the walk does not go there
mutual
/-- The places in a value, in document order, each before the places below it. -/
def visits (schema : Schema) (path : Path) : Value → List Visit
  | .list items =>
    ⟨path, some schema, .list items⟩ ::
      match schema.item? with
      | some item => itemVisits item path 0 items
      | none => []
  | .dict entries =>
    ⟨path, some schema, .dict entries⟩ ::
      match schema.fields? with
      | some fields => entryVisits fields path entries
      | none => []
  | .null => [⟨path, some schema, .null⟩]
  | .bool b => [⟨path, some schema, .bool b⟩]
  | .num n => [⟨path, some schema, .num n⟩]
  | .str s => [⟨path, some schema, .str s⟩]
def itemVisits (item : Schema) (path : Path) (i : Nat) : List Value → List Visit
  | [] => []
  | v :: vs => item.visits (path ++ [.index i]) v ++ itemVisits item path (i + 1) vs
def entryVisits (fields : List (String × Schema)) (path : Path) :
    List (String × Value) → List Visit
  | [] => []
  | (key, v) :: es =>
    (match Entries.get? key fields with
      | some field => field.visits (path ++ [.key key]) v
      | none => [⟨path ++ [.key key], none, v⟩])
      ++ entryVisits fields path es
end

/-! ## The test of one place -/

/-- Whether a value fits its declared type, all below it aside. -/
def admits : Schema → Value → Bool
  | _, .null => true
  | .str, .str _ => true
  | .str, .num _ => true
  | .int, .num (.int _) => true
  | .int, .str s => (readInteger? s).isSome
  | .bool, .bool _ => true
  | .bool, .str s => s = "true" || s = "false"
  | .choice choices, .str s => s ∈ choices
  | .list _, .list _ => true
  | .dict _, .dict _ => true
  | .scope, .dict _ => true
  | _, _ => false

/-- What is wrong with a value that does not fit. -/
def refusal (path : Path) : Schema → Value → Fault
  | .choice choices, .str s => .invalidChoice path s choices
  | schema, v => .invalidType path schema.expectation v

end Schema

/-- The fault of a place. -/
def Visit.fault? (visit : Visit) : Option Fault :=
  match visit.schema? with
  | none => some (.unsupportedField visit.path)
  | some schema =>
    if schema.admits visit.value then none else some (schema.refusal visit.path visit.value)

/-- All faults of a value, in document order. -/
def Schema.faults (schema : Schema) (path : Path) (v : Value) : List Fault :=
  (schema.visits path v).filterMap Visit.fault?

/-! ## Paths -/

/-- Following the path from the first value, one comes to the second. -/
inductive Leads : Value → Path → Value → Prop where
  | here (v : Value) : Leads v [] v
  | item {items : List Value} {i : Nat} {v w : Value} {path : Path} :
      items[i]? = some v → Leads v path w → Leads (.list items) (.index i :: path) w
  | entry {entries : List (String × Value)} {key : String} {v w : Value} {path : Path} :
      (key, v) ∈ entries → Leads v path w → Leads (.dict entries) (.key key :: path) w

/-- The places are reached from `v`, which stands at `path`. -/
def Reached (v : Value) (path : Path) (visit : Visit) : Prop :=
  ∃ rest, visit.path = path ++ rest ∧ Leads v rest visit.value

theorem Reached.here (v : Value) (path : Path) (schema? : Option Schema) :
    Reached v path ⟨path, schema?, v⟩ :=
  ⟨[], (List.append_nil path).symm, .here v⟩

theorem Reached.item {v : Value} {path : Path} {i : Nat} {visit : Visit}
    (h : Reached v (path ++ [.index i]) visit) {items : List Value} (hv : items[i]? = some v) :
    Reached (.list items) path visit := by
  obtain ⟨rest, hpath, hleads⟩ := h
  exact ⟨.index i :: rest, by rw [hpath, List.append_assoc]; rfl, .item hv hleads⟩

theorem Reached.entry {v : Value} {path : Path} {key : String} {visit : Visit}
    (h : Reached v (path ++ [.key key]) visit) {entries : List (String × Value)}
    (hv : (key, v) ∈ entries) : Reached (.dict entries) path visit := by
  obtain ⟨rest, hpath, hleads⟩ := h
  exact ⟨.key key :: rest, by rw [hpath, List.append_assoc]; rfl, .entry hv hleads⟩

theorem Reached.of_singleton {v : Value} {path : Path} {schema? : Option Schema} {visit : Visit}
    (h : visit ∈ [⟨path, schema?, v⟩]) : Reached v path visit :=
  List.mem_singleton.mp h ▸ .here v path schema?

open Schema in
mutual
theorem reached_visits {schema : Schema} {path : Path} :
    ∀ v : Value, ∀ visit ∈ schema.visits path v, Reached v path visit
  | .null, _, h => .of_singleton h
  | .bool _, _, h => .of_singleton h
  | .num _, _, h => .of_singleton h
  | .str _, _, h => .of_singleton h
  | .list items, visit, h => by
    rw [visits, List.mem_cons] at h
    rcases h with rfl | h
    · exact .here _ _ _
    · split at h
      · exact reached_itemVisits [] items visit h
      · cases h
  | .dict entries, visit, h => by
    rw [visits, List.mem_cons] at h
    rcases h with rfl | h
    · exact .here _ _ _
    · split at h
      · exact reached_entryVisits entries (fun _ he => he) visit h
      · cases h
-- the items before the walk are kept, so that a position counts from the start of the list
theorem reached_itemVisits {item : Schema} {path : Path} (before : List Value) :
    ∀ vs : List Value, ∀ visit ∈ itemVisits item path before.length vs,
      Reached (.list (before ++ vs)) path visit
  | [], _, h => by cases h
  | v :: vs, visit, h => by
    rw [itemVisits, List.mem_append] at h
    rcases h with h | h
    · exact (reached_visits v visit h).item (by simp)
    · have hrest := reached_itemVisits (before ++ [v]) vs visit (by rwa [List.length_append])
      rwa [List.append_assoc] at hrest
theorem reached_entryVisits {fields : List (String × Schema)} {path : Path}
    {entries : List (String × Value)} :
    ∀ es : List (String × Value), (∀ e ∈ es, e ∈ entries) →
      ∀ visit ∈ entryVisits fields path es, Reached (.dict entries) path visit
  | [], _, _, h => by cases h
  | (key, v) :: es, hes, visit, h => by
    have hv : (key, v) ∈ entries := hes _ List.mem_cons_self
    rw [entryVisits, List.mem_append] at h
    rcases h with h | h
    · split at h
      · exact (reached_visits v visit h).entry hv
      · exact (Reached.of_singleton h).entry hv
    · exact reached_entryVisits es (fun e he => hes e (List.mem_cons_of_mem _ he)) visit h
end

/-! ## Texts that stand for an integer -/

/-- Decimal digits, perhaps behind a sign, and the integer they denote. -/
inductive Numeral : List Char → Int → Prop where
  | plain {cs : List Char} : cs ≠ [] → (∀ c ∈ cs, Text.isAsciiDigit c = true) →
      Numeral cs (Nat.ofDigitChars 10 cs 0)
  | plus {cs : List Char} : cs ≠ [] → (∀ c ∈ cs, Text.isAsciiDigit c = true) →
      Numeral ('+' :: cs) (Nat.ofDigitChars 10 cs 0)
  | minus {cs : List Char} : cs ≠ [] → (∀ c ∈ cs, Text.isAsciiDigit c = true) →
      Numeral ('-' :: cs) (-(Nat.ofDigitChars 10 cs 0 : Int))

/-- The text is a numeral with blanks around it, and the integer has 64 bits. -/
def Spells (s : String) (n : Int) : Prop :=
  Numeral (Text.trim s.toList) n ∧ -9223372036854775808 ≤ n ∧ n ≤ 9223372036854775807

theorem readDigits?_eq_some_iff {cs : List Char} {n : Nat} :
    readDigits? cs = some n ↔
      cs ≠ [] ∧ (∀ c ∈ cs, Text.isAsciiDigit c = true) ∧ n = Nat.ofDigitChars 10 cs 0 := by
  unfold readDigits?
  split
  · rename_i h
    rw [List.all_eq_true] at h
    constructor
    · intro hn
      exact ⟨h.1, h.2, (Option.some.inj hn).symm⟩
    · rintro ⟨_, _, rfl⟩
      rfl
  · rename_i h
    rw [List.all_eq_true] at h
    constructor
    · intro hn
      cases hn
    · rintro ⟨hne, hall, _⟩
      exact absurd ⟨hne, hall⟩ h

theorem map_readDigits?_iff {cs : List Char} {f : Int → Int} {n : Int} :
    (readDigits? cs >>= fun m => pure (m : Int)).map f = some n ↔
      cs ≠ [] ∧ (∀ c ∈ cs, Text.isAsciiDigit c = true) ∧ n = f (Nat.ofDigitChars 10 cs 0) := by
  rw [Option.map_eq_some_iff]
  constructor
  · rintro ⟨m, hm, rfl⟩
    obtain ⟨d, hd, hdm⟩ := Option.bind_eq_some_iff.mp hm
    obtain ⟨hne, hall, rfl⟩ := readDigits?_eq_some_iff.mp hd
    exact ⟨hne, hall, by rw [← Option.some.inj hdm]⟩
  · rintro ⟨hne, hall, rfl⟩
    refine ⟨_, ?_, rfl⟩
    rw [readDigits?_eq_some_iff.mpr ⟨hne, hall, rfl⟩]
    rfl

theorem readInteger?_iff {s : String} {n : Int} : readInteger? s = some n ↔ Spells s n := by
  have hplus : Text.isAsciiDigit '+' = false := by decide
  have hminus : Text.isAsciiDigit '-' = false := by decide
  simp only [readInteger?, Option.filter_eq_some_iff, Bool.and_eq_true, decide_eq_true_eq, Spells]
  refine and_congr_left fun _ => ?_
  generalize Text.trim s.toList = cs
  split
  · rename_i ds
    rw [map_readDigits?_iff]
    constructor
    · rintro ⟨hne, hall, rfl⟩
      exact .plus hne hall
    · intro h
      cases h with
      | plain _ hall =>
        -- a sign is no digit
        have := hall '+' List.mem_cons_self
        simp [hplus] at this
      | plus hne hall => exact ⟨hne, hall, rfl⟩
  · rename_i ds
    rw [map_readDigits?_iff]
    constructor
    · rintro ⟨hne, hall, rfl⟩
      exact .minus hne hall
    · intro h
      cases h with
      | plain _ hall =>
        have := hall '-' List.mem_cons_self
        simp [hminus] at this
      | minus hne hall => exact ⟨hne, hall, rfl⟩
  · rename_i hnoPlus hnoMinus
    rw [map_readDigits?_iff]
    constructor
    · rintro ⟨hne, hall, rfl⟩
      exact .plain hne hall
    · intro h
      cases h with
      | plain hne hall => exact ⟨hne, hall, rfl⟩
      | plus _ _ => exact absurd rfl (hnoPlus _)
      | minus _ _ => exact absurd rfl (hnoMinus _)

/-! ## What a check may change -/

mutual
/-- The second value is the first with its leaves in their declared form. -/
inductive Coerces : Schema → Value → Value → Prop where
  | null (schema : Schema) : Coerces schema .null .null
  | text (s : String) : Coerces .str (.str s) (.str s)
  | numberText (n : Number) : Coerces .str (.num n) (.str n.text)
  | integer (n : Int) : Coerces .int (.num (.int n)) (.num (.int n))
  | integerText {s : String} {n : Int} : Spells s n → Coerces .int (.str s) (.num (.int n))
  | truth (b : Bool) : Coerces .bool (.bool b) (.bool b)
  | trueText : Coerces .bool (.str "true") (.bool true)
  | falseText : Coerces .bool (.str "false") (.bool false)
  | word {choices : List String} {s : String} :
      s ∈ choices → Coerces (.choice choices) (.str s) (.str s)
  | list {item : Schema} {vs ws : List Value} :
      CoercesItems item vs ws → Coerces (.list item) (.list vs) (.list ws)
  | dict {schema : Schema} {fields : List (String × Schema)} {es ws : List (String × Value)} :
      schema.fields? = some fields → CoercesEntries fields es ws →
      Coerces schema (.dict es) (.dict ws)
/-- Items keep their positions. -/
inductive CoercesItems : Schema → List Value → List Value → Prop where
  | nil (item : Schema) : CoercesItems item [] []
  | cons {item : Schema} {v w : Value} {vs ws : List Value} :
      Coerces item v w → CoercesItems item vs ws → CoercesItems item (v :: vs) (w :: ws)
/-- Entries keep their keys, which are declared, and their order. -/
inductive CoercesEntries :
    List (String × Schema) → List (String × Value) → List (String × Value) → Prop where
  | nil (fields : List (String × Schema)) : CoercesEntries fields [] []
  | cons {fields : List (String × Schema)} {key : String} {field : Schema} {v w : Value}
      {es ws : List (String × Value)} :
      Entries.get? key fields = some field → Coerces field v w → CoercesEntries fields es ws →
      CoercesEntries fields ((key, v) :: es) ((key, w) :: ws)
end

open Schema in
mutual
theorem validate_of_coerces {schema : Schema} {path : Path} :
    ∀ {v w : Value}, Coerces schema v w → schema.validate path v = .ok w
  | .null, _, h => by
    cases h
    rfl
  | .bool b, _, h => by
    cases h
    rfl
  | .num n, _, h => by
    cases h <;> rfl
  | .str s, _, h => by
    cases h with
    | text => rfl
    | integerText hspells =>
      simp only [validate, validateLeaf, readInteger?_iff.mpr hspells]
    | trueText => rfl
    | falseText => rfl
    | word hmem => simp only [validate, validateLeaf, hmem, if_true]
  | .list vs, _, h => by
    cases h with
    | list hitems => exact validate_list rfl (validateItems_of_coerces hitems)
  | .dict es, _, h => by
    cases h with
    | dict hfields hentries => exact validate_dict hfields (validateEntries_of_coerces hentries)
theorem validateItems_of_coerces {item : Schema} {path : Path} {i : Nat} :
    ∀ {vs ws : List Value}, CoercesItems item vs ws → validateItems item path i vs = .ok ws
  | [], _, h => by
    cases h
    rfl
  | v :: vs, _, h => by
    cases h with
    | cons hv hvs =>
      rw [validateItems_cons, validate_of_coerces hv, validateItems_of_coerces hvs]
      rfl
theorem validateEntries_of_coerces {fields : List (String × Schema)} {path : Path} :
    ∀ {es ws : List (String × Value)}, CoercesEntries fields es ws →
      validateEntries fields path es = .ok ws
  | [], _, h => by
    cases h
    rfl
  | (key, v) :: es, _, h => by
    cases h with
    | cons hfield hv hes =>
      rw [validateEntries_cons hfield, validate_of_coerces hv, validateEntries_of_coerces hes]
      rfl
end

/-! ## What a check reports -/

/-- A check that fails names the first fault, and one that passes has none to name. -/
def Reports {α : Type} (result : Except Fault α) (faults : List Fault) (Good : α → Prop) : Prop :=
  match result with
  | .error fault => faults.head? = some fault
  | .ok a => faults = [] ∧ Good a

theorem Reports.map {α β : Type} {x : Except Fault α} {f : α → β} {faults : List Fault}
    {A : α → Prop} {B : β → Prop} (h : Reports x faults A) (hB : ∀ a, A a → B (f a)) :
    Reports (x.map f) faults B := by
  cases x with
  | error fault => exact h
  | ok a => exact ⟨h.1, hB a h.2⟩

/-- Two checks, the second made only if the first passes. -/
theorem Reports.bind {α β γ : Type} {x : Except Fault α} {y : Except Fault β} {f : α → β → γ}
    {first second : List Fault} {A : α → Prop} {B : β → Prop} {C : γ → Prop}
    (hx : Reports x first A) (hy : Reports y second B) (hC : ∀ a b, A a → B b → C (f a b)) :
    Reports (x.bind fun a => y.map (f a)) (first ++ second) C := by
  cases x with
  | error fault =>
    have hfirst : first.head? = some fault := hx
    show (first ++ second).head? = some fault
    rw [List.head?_append, hfirst]
    rfl
  | ok a =>
    obtain ⟨rfl, ha⟩ : first = [] ∧ A a := hx
    cases y with
    | error fault => exact hy
    | ok b => exact ⟨hy.1, hC a b ha hy.2⟩

section
variable {schema : Schema} {path : Path} {v : Value}

theorem fault?_admitted (h : schema.admits v = true) :
    Visit.fault? ⟨path, some schema, v⟩ = none :=
  if_pos h

theorem fault?_refused (h : schema.admits v = false) :
    Visit.fault? ⟨path, some schema, v⟩ = some (schema.refusal path v) := by
  show (if schema.admits v = true then _ else _) = _
  rw [if_neg (by simp [h])]

theorem validateLeaf_refused (h : schema.admits v = false) :
    schema.validateLeaf path v = .error (schema.refusal path v) := by
  fun_cases Schema.validateLeaf schema path v <;> simp_all [Schema.admits, Schema.refusal]

theorem validate_refused (h : schema.admits v = false) :
    schema.validate path v = .error (schema.refusal path v) := by
  cases v with
  | null => cases schema <;> cases h
  | bool b => exact validateLeaf_refused h
  | num n => exact validateLeaf_refused h
  | str s => exact validateLeaf_refused h
  | list items =>
    cases schema with
    | list item => cases h
    | _ => rfl
  | dict entries =>
    cases schema with
    | dict fields => cases h
    | scope => cases h
    | _ => rfl

/-- A value that does not fit is refused, and what is below it does not matter. -/
theorem reports_refused (h : schema.admits v = false) :
    Reports (schema.validate path v) (schema.faults path v) (Coerces schema v) := by
  obtain ⟨below, hvisits⟩ : ∃ below, schema.visits path v = ⟨path, some schema, v⟩ :: below := by
    cases v <;> exact ⟨_, rfl⟩
  rw [validate_refused h]
  show (schema.faults path v).head? = some (schema.refusal path v)
  rw [Schema.faults, hvisits, List.filterMap_cons_some (fault?_refused h)]
  rfl

/-- A value that is neither null nor a list nor a mapping. -/
def Value.IsLeaf (v : Value) : Prop :=
  v ≠ .null ∧ v.items? = none ∧ v.entries? = none

theorem Value.IsLeaf.coerces (hleaf : v.IsLeaf) (h : schema.admits v = true) :
    ∃ w, Coerces schema v w := by
  unfold Schema.admits at h
  split at h
  · exact absurd rfl hleaf.1
  · exact ⟨_, .text _⟩
  · exact ⟨_, .numberText _⟩
  · exact ⟨_, .integer _⟩
  · obtain ⟨n, hn⟩ := Option.isSome_iff_exists.mp h
    exact ⟨_, .integerText (readInteger?_iff.mp hn)⟩
  · exact ⟨_, .truth _⟩
  · rw [Bool.or_eq_true, decide_eq_true_eq, decide_eq_true_eq] at h
    rcases h with rfl | rfl
    · exact ⟨_, .trueText⟩
    · exact ⟨_, .falseText⟩
  · exact ⟨_, .word (decide_eq_true_eq.mp h)⟩
  · cases hleaf.2.1
  · cases hleaf.2.2
  · cases hleaf.2.2
  · cases h

/-- The faults of a value that fits are those of its parts. -/
theorem faults_admitted {below : List Visit} (h : schema.admits v = true)
    (hvisits : schema.visits path v = ⟨path, some schema, v⟩ :: below) :
    schema.faults path v = below.filterMap Visit.fault? := by
  rw [Schema.faults, hvisits, List.filterMap_cons_none (fault?_admitted h)]

theorem reports_null : Reports (schema.validate path .null) (schema.faults path .null)
    (Coerces schema .null) := by
  have h : schema.admits .null = true := by cases schema <;> rfl
  have hnil : schema.faults path .null = [] := faults_admitted h rfl
  exact ⟨hnil, .null schema⟩

theorem reports_leaf (hleaf : v.IsLeaf) (hvisits : schema.visits path v = [⟨path, some schema, v⟩]) :
    Reports (schema.validate path v) (schema.faults path v) (Coerces schema v) := by
  cases h : schema.admits v with
  | false => exact reports_refused h
  | true =>
    obtain ⟨w, hw⟩ := hleaf.coerces h
    rw [validate_of_coerces hw]
    exact ⟨faults_admitted h hvisits, hw⟩

end

open Schema in
mutual
theorem reports_validate {schema : Schema} {path : Path} : ∀ v : Value,
    Reports (schema.validate path v) (schema.faults path v) (Coerces schema v)
  | .null => reports_null
  | .bool _ => reports_leaf ⟨nofun, rfl, rfl⟩ rfl
  | .num _ => reports_leaf ⟨nofun, rfl, rfl⟩ rfl
  | .str _ => reports_leaf ⟨nofun, rfl, rfl⟩ rfl
  | .list vs => by
    cases schema with
    | list item =>
      rw [faults_admitted rfl rfl]
      exact (reports_validateItems vs).map fun _ => .list
    | _ => exact reports_refused rfl
  | .dict es => by
    cases schema with
    | dict fields =>
      rw [faults_admitted rfl rfl]
      exact (reports_validateEntries es).map fun _ => .dict rfl
    | scope =>
      rw [faults_admitted rfl rfl]
      exact (reports_validateEntries es).map fun _ => .dict rfl
    | _ => exact reports_refused rfl
theorem reports_validateItems {item : Schema} {path : Path} {i : Nat} : ∀ vs : List Value,
    Reports (validateItems item path i vs) ((itemVisits item path i vs).filterMap Visit.fault?)
      (CoercesItems item vs)
  | [] => ⟨rfl, .nil item⟩
  | v :: vs => by
    rw [validateItems_cons, itemVisits, List.filterMap_append]
    exact (reports_validate v).bind (reports_validateItems vs) fun _ _ => .cons
theorem reports_validateEntries {fields : List (String × Schema)} {path : Path} :
    ∀ es : List (String × Value),
    Reports (validateEntries fields path es) ((entryVisits fields path es).filterMap Visit.fault?)
      (CoercesEntries fields es)
  | [] => ⟨rfl, .nil fields⟩
  | (key, v) :: es => by
    cases hfield : Entries.get? key fields with
    | none =>
      simp only [validateEntries, entryVisits, hfield]
      rfl
    | some field =>
      rw [validateEntries_cons hfield]
      simp only [entryVisits, hfield, List.filterMap_append]
      exact (reports_validate v).bind (reports_validateEntries es) fun _ _ => .cons hfield
end

theorem coerces_of_validate {schema : Schema} {path : Path} {v w : Value}
    (h : schema.validate path v = .ok w) : Coerces schema v w := by
  have hreports : Reports (schema.validate path v) _ _ := reports_validate v
  rw [h] at hreports
  exact hreports.2

/-! ## Lists of documents -/

/-- **A check reports exactly the first fault.**  For every list of documents, the check fails with a
fault exactly when that fault is the first of all faults in document order; it returns a value exactly
when there is no fault and the value is the list with its leaves in their declared form, which exists
then; and the path of every place on the walk leads to the value there. -/
theorem validate_firstFault (documents : List Value) :
    (∀ fault, Schema.routeMaps.validate [] (.list documents) = .error fault ↔
      (Schema.routeMaps.faults [] (.list documents)).head? = some fault) ∧
    (∀ checked, Schema.routeMaps.validate [] (.list documents) = .ok checked ↔
      Schema.routeMaps.faults [] (.list documents) = [] ∧
        Coerces .routeMaps (.list documents) checked) ∧
    (Schema.routeMaps.faults [] (.list documents) = [] →
      ∃ checked, Schema.routeMaps.validate [] (.list documents) = .ok checked) ∧
    (∀ visit ∈ Schema.routeMaps.visits [] (.list documents),
      Leads (.list documents) visit.path visit.value) := by
  have hreports : Reports (Schema.routeMaps.validate [] (.list documents))
      (Schema.routeMaps.faults [] (.list documents)) (Coerces .routeMaps (.list documents)) :=
    reports_validate _
  have hpaths : ∀ visit ∈ Schema.routeMaps.visits [] (.list documents),
      Leads (.list documents) visit.path visit.value := by
    intro visit hvisit
    obtain ⟨rest, hpath, hleads⟩ := reached_visits _ visit hvisit
    rw [hpath]
    exact hleads
  generalize hfaults : Schema.routeMaps.faults [] (.list documents) = faults at hreports
  cases hvalidate : Schema.routeMaps.validate [] (.list documents) with
  | error fault =>
    rw [hvalidate] at hreports
    have hhead : faults.head? = some fault := hreports
    refine ⟨fun other => ?_, fun checked => ?_, fun hnil => ?_, hpaths⟩
    · rw [hhead, Except.error.injEq, Option.some.injEq]
    · simp only [reduceCtorEq, false_iff, not_and]
      rintro rfl
      cases hhead
    · rw [hnil] at hhead
      cases hhead
  | ok checked =>
    rw [hvalidate] at hreports
    obtain ⟨rfl, hcoerces⟩ : faults = [] ∧ Coerces .routeMaps (.list documents) checked := hreports
    refine ⟨fun other => ?_, fun other => ?_, fun _ => ⟨checked, rfl⟩, hpaths⟩
    · simp
    · rw [Except.ok.injEq]
      constructor
      · rintro rfl
        exact ⟨rfl, hcoerces⟩
      · rintro ⟨_, hother⟩
        have hsame : Schema.routeMaps.validate [] (.list documents) = .ok other :=
          validate_of_coerces hother
        rw [hvalidate] at hsame
        exact Except.ok.inj hsame

/-- Three faults, at different depths, before and behind places that fit. -/
example :
    (Schema.routeMaps.faults [] (.list [.dict
      [ ("name", .str "P"), ("bogus", .dict [("global", .bool true)]),
        ("if", .dict
          [ ("conditions", .list [.dict [], .dict [("med", .dict [("match", .str "ne")])]]),
            ("drop", .num (.int 1)) ]) ]])).map (fun fault => fault.path.text)
      = ["config[0].bogus", "config[0].if.conditions[1].med.match", "config[0].if.drop"] := by
  decide +kernel

end RoutePolicy
