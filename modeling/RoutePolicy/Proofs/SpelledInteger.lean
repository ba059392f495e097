import RoutePolicy.Proofs.FirstFault
import RoutePolicy.Proofs.IntegerLeaf

/-!
# Integers as numbers and as texts

A document may hold an integer as a number or as the text of its decimal digits.  Replacing numbers
by their texts (`SpelledOut`) leaves the outcome of a check as it is, with one exception: where an
integer is declared, a number of up to `2 ^ 64 - 1` is taken, but a text only up to `2 ^ 63 - 1`.

* `Schema.Within`            the types that occur in a schema;
* `spells_integerText_iff`   the text of an integer stands for that integer, if it has 64 bits signed;
* `lettered_of_within`       no listed word of the schema is the text of an integer, so texts and
                             numbers are refused alike where words are listed;
* `coerces_spelledOut`       so both forms coerce to the same value, except at those places.
-/

namespace RoutePolicy

/-! ## The text of an integer -/

theorem Text.isAsciiDigit_of_isDigit {c : Char} (h : c.isDigit = true) : isAsciiDigit c = true := by
  simp only [Char.isDigit, ge_iff_le, Bool.and_eq_true, decide_eq_true_eq] at h
  have hlow : (48 : Nat) ≤ c.toNat := h.1
  have hhigh : c.toNat ≤ 57 := h.2
  simp only [isAsciiDigit, Bool.and_eq_true, decide_eq_true_eq]
  omega

theorem isAsciiDigit_toDigits (n : Nat) : ∀ c ∈ Nat.toDigits 10 n, Text.isAsciiDigit c = true := by
  intro c hc
  exact Text.isAsciiDigit_of_isDigit (Nat.isDigit_of_mem_toDigits (by decide) (by decide) hc)

theorem numeral_integerText (n : Int) : Numeral (integerText n).toList n := by
  have hvalue : Nat.ofDigitChars 10 (Nat.toDigits 10 n.natAbs) 0 = n.natAbs :=
    Nat.ofDigitChars_toDigits (by decide) (by decide)
  have hdigits := isAsciiDigit_toDigits n.natAbs
  rw [integerText, String.toList_ofList]
  split
  · have h := Numeral.minus Nat.toDigits_ne_nil hdigits
    rw [hvalue] at h
    have hn : -(n.natAbs : Int) = n := by omega
    rwa [hn] at h
  · have h := Numeral.plain Nat.toDigits_ne_nil hdigits
    rw [hvalue] at h
    have hn : (n.natAbs : Int) = n := by omega
    rwa [hn] at h

/-- Digits and a minus sign: the characters of an integer. -/
def isIntegerChar (c : Char) : Bool :=
  Text.isAsciiDigit c || c = '-'

theorem isIntegerChar_integerText (n : Int) : ∀ c ∈ (integerText n).toList, isIntegerChar c = true := by
  intro c hc
  rw [integerText, String.toList_ofList] at hc
  split at hc
  · rcases List.mem_cons.mp hc with rfl | hc
    · decide
    · simp [isIntegerChar, isAsciiDigit_toDigits _ c hc]
  · simp [isIntegerChar, isAsciiDigit_toDigits _ c hc]

theorem trim_integerText (n : Int) : Text.trim (integerText n).toList = (integerText n).toList := by
  refine Text.trim_of_solid fun c hc => ?_
  have h := isIntegerChar_integerText n c hc
  rw [isIntegerChar, Bool.or_eq_true, decide_eq_true_eq] at h
  rcases h with h | rfl
  · exact Text.isBlank_of_isDigit (Text.isDigit_of_isAsciiDigit h)
  · decide

theorem Numeral.unique {cs : List Char} {m n : Int} (h : Numeral cs m) (h' : Numeral cs n) : m = n := by
  have hplus : Text.isAsciiDigit '+' = false := by decide
  have hminus : Text.isAsciiDigit '-' = false := by decide
  cases h with
  | plain _ hall =>
    cases h' with
    | plain _ _ => rfl
    | plus _ _ => simp [hplus] at hall
    | minus _ _ => simp [hminus] at hall
  | plus _ _ =>
    cases h' with
    | plain _ hall => simp [hplus] at hall
    | plus _ _ => rfl
  | minus _ _ =>
    cases h' with
    | plain _ hall => simp [hminus] at hall
    | minus _ _ => rfl

theorem spells_integerText_iff {m n : Int} :
    Spells (integerText n) m ↔
      m = n ∧ -9223372036854775808 ≤ n ∧ n ≤ 9223372036854775807 := by
  rw [Spells, trim_integerText]
  constructor
  · rintro ⟨hnumeral, hrange⟩
    obtain rfl := hnumeral.unique (numeral_integerText n)
    exact ⟨rfl, hrange⟩
  · rintro ⟨rfl, hrange⟩
    exact ⟨numeral_integerText m, hrange⟩

/-- A text with some other character in it. -/
def isLettered (s : String) : Bool :=
  s.toList.any fun c => !isIntegerChar c

theorem integerText_ne {s : String} (h : isLettered s = true) (n : Int) : integerText n ≠ s := by
  rintro rfl
  obtain ⟨c, hc, hother⟩ := List.any_eq_true.mp h
  rw [isIntegerChar_integerText n c hc] at hother
  exact absurd hother (by simp)

/-! ## The types in a schema -/

/-- The types that occur in a schema, those below a scope included. -/
inductive Schema.Within (root : Schema) : Schema → Prop where
  | root : Within root root
  | item {schema item : Schema} : Within root schema → schema.item? = some item → Within root item
  | field {schema field : Schema} {fields : List (String × Schema)} {key : String} :
      Within root schema → schema.fields? = some fields → Entries.get? key fields = some field →
      Within root field

namespace Schema

mutual
/-- Whether all types in a schema pass a test; those below a scope are declared elsewhere. -/
def every (test : Schema → Bool) : Schema → Bool
  | .dict fields => test (.dict fields) && everyField test fields
  | .list item => test (.list item) && item.every test
  | .str => test .str
  | .int => test .int
  | .bool => test .bool
  | .choice choices => test (.choice choices)
  | .scope => test .scope
def everyField (test : Schema → Bool) : List (String × Schema) → Bool
  | [] => true
  | (_, schema) :: fields => schema.every test && everyField test fields
end

variable {test : Schema → Bool}

theorem every_get? {fields : List (String × Schema)} {key : String} {field : Schema}
    (h : everyField test fields = true) (hget : Entries.get? key fields = some field) :
    field.every test = true := by
  induction fields with
  | nil => cases hget
  | cons entry fields ih =>
    obtain ⟨other, schema⟩ := entry
    rw [everyField, Bool.and_eq_true] at h
    rw [Entries.get?] at hget
    split at hget
    · obtain rfl := Option.some.inj hget
      exact h.1
    · exact ih h.2 hget

theorem every_of_within {root schema : Schema} (hroot : root.every test = true)
    (hscope : everyField test scopeFields = true) (h : root.Within schema) :
    schema.every test = true := by
  induction h with
  | root => exact hroot
  | @item schema item _ hitem ih =>
    cases schema with
    | list other =>
      obtain rfl := Option.some.inj hitem
      rw [every, Bool.and_eq_true] at ih
      exact ih.2
    | _ => cases hitem
  | @field schema field fields key _ hfields hget ih =>
    cases schema with
    | dict others =>
      obtain rfl := Option.some.inj hfields
      rw [every, Bool.and_eq_true] at ih
      exact every_get? ih.2 hget
    | scope =>
      obtain rfl := Option.some.inj hfields
      exact every_get? hscope hget
    | _ => cases hfields

/-- no listed word could be an integer -/
def lettered : Schema → Bool
  | .choice choices => choices.all isLettered
  | _ => true

theorem lettered_of_within {choices : List String} (h : routeMaps.Within (.choice choices)) :
    ∀ s ∈ choices, isLettered s = true := by
  have hroot : routeMaps.every lettered = true := by decide +kernel
  have hscope : everyField lettered scopeFields = true := by decide +kernel
  have hchoice := every_of_within hroot hscope h
  exact List.all_eq_true.mp hchoice

end Schema

/-! ## Numbers written out -/

mutual
/-- The second value is the first with some integers, of 64 bits signed or unsigned, replaced by
their texts. -/
inductive SpelledOut : Value → Value → Prop where
  | kept {v : Value} : v.items? = none → v.entries? = none → SpelledOut v v
  | integer {n : Int} : -9223372036854775808 ≤ n → n ≤ 18446744073709551615 →
      SpelledOut (.num (.int n)) (.str (integerText n))
  | list {vs ws : List Value} : SpelledOutItems vs ws → SpelledOut (.list vs) (.list ws)
  | dict {es ws : List (String × Value)} : SpelledOutEntries es ws → SpelledOut (.dict es) (.dict ws)
inductive SpelledOutItems : List Value → List Value → Prop where
  | nil : SpelledOutItems [] []
  | cons {v w : Value} {vs ws : List Value} :
      SpelledOut v w → SpelledOutItems vs ws → SpelledOutItems (v :: vs) (w :: ws)
inductive SpelledOutEntries : List (String × Value) → List (String × Value) → Prop where
  | nil : SpelledOutEntries [] []
  | cons {key : String} {v w : Value} {es ws : List (String × Value)} :
      SpelledOut v w → SpelledOutEntries es ws →
      SpelledOutEntries ((key, v) :: es) ((key, w) :: ws)
end

/-- The text of an integer that has 64 bits only without a sign. -/
def Value.IsOversized (v : Value) : Prop :=
  ∃ n : Int, 9223372036854775807 < n ∧ n ≤ 18446744073709551615 ∧ v = .str (integerText n)

/-- No text of an oversized integer stands where an integer is declared. -/
def Fitting (leaves : List (Path × Value)) : Prop :=
  ∀ leaf ∈ leaves, ¬ leaf.2.IsOversized

theorem isOversized_integerText {n : Int} :
    (Value.str (integerText n)).IsOversized ↔
      9223372036854775807 < n ∧ n ≤ 18446744073709551615 := by
  constructor
  · rintro ⟨m, hlow, hhigh, htext⟩
    have hm := numeral_integerText m
    rw [← Value.str.inj htext] at hm
    obtain rfl := hm.unique (numeral_integerText n)
    exact ⟨hlow, hhigh⟩
  · rintro ⟨hlow, hhigh⟩
    exact ⟨n, hlow, hhigh, rfl⟩

theorem fitting_nil : Fitting [] := by
  intro leaf hleaf
  cases hleaf

theorem fitting_append {a b : List (Path × Value)} : Fitting (a ++ b) ↔ Fitting a ∧ Fitting b := by
  unfold Fitting
  rw [List.forall_mem_append]

theorem fitting_singleton {path : Path} {v : Value} : Fitting [(path, v)] ↔ ¬ v.IsOversized := by
  unfold Fitting
  rw [List.forall_mem_singleton]

section
variable {schema : Schema} {path : Path} {v w : Value}

theorem integerLeaves_kept (hitems : v.items? = none) (hentries : v.entries? = none) :
    schema.integerLeaves path v = schema.ownInteger path v := by
  cases v with
  | list _ => cases hitems
  | dict _ => cases hentries
  | _ => rfl

/-- What is coerced to an integer is no oversized text. -/
theorem fitting_kept (hitems : v.items? = none) (hentries : v.entries? = none)
    (h : Coerces schema v w) : Fitting (schema.integerLeaves path v) := by
  rw [integerLeaves_kept hitems hentries]
  cases schema with
  | int =>
    refine fitting_singleton.mpr ?_
    rintro ⟨n, hlow, _, rfl⟩
    cases h with
    | integerText hspells =>
      have := (spells_integerText_iff.mp hspells).2
      omega
  | _ => exact fitting_nil

/-- A number and its text, by what is declared. -/
theorem coerces_integer (hnode : Schema.routeMaps.Within schema) {n : Int}
    (hlow : -9223372036854775808 ≤ n) (hhigh : n ≤ 18446744073709551615) :
    Coerces schema (.str (integerText n)) w ↔
      Coerces schema (.num (.int n)) w ∧
        Fitting (schema.integerLeaves path (.str (integerText n))) := by
  cases schema with
  | str =>
    -- the number becomes its text, and the text stays
    constructor
    · intro h
      cases h
      exact ⟨.numberText (.int n), fitting_nil⟩
    · rintro ⟨h, _⟩
      cases h
      exact .text (integerText n)
  | int =>
    constructor
    · intro h
      cases h with
      | integerText hspells =>
        obtain ⟨rfl, hrange⟩ := spells_integerText_iff.mp hspells
        exact ⟨.integer _, fitting_kept rfl rfl (.integerText hspells)⟩
    · rintro ⟨h, hfitting⟩
      cases h
      refine .integerText (spells_integerText_iff.mpr ⟨rfl, hlow, ?_⟩)
      by_contra hlarge
      exact fitting_singleton.mp hfitting (isOversized_integerText.mpr ⟨by omega, hhigh⟩)
  | bool =>
    constructor
    · intro h
      generalize htext : integerText n = s at h
      cases h with
      | trueText => exact absurd htext (integerText_ne (by decide) n)
      | falseText => exact absurd htext (integerText_ne (by decide) n)
    · rintro ⟨h, _⟩
      cases h
  | choice choices =>
    constructor
    · intro h
      cases h with
      | word hmem => exact absurd rfl (integerText_ne (Schema.lettered_of_within hnode _ hmem) n)
    · rintro ⟨h, _⟩
      cases h
  | _ =>
    -- neither is a list or a mapping
    constructor
    · intro h
      cases h
    · rintro ⟨h, _⟩
      cases h

end

/-! ## Whole documents -/

theorem coerces_list_iff {schema : Schema} {vs : List Value} {w : Value} :
    Coerces schema (.list vs) w ↔
      ∃ item ws, schema = .list item ∧ w = .list ws ∧ CoercesItems item vs ws := by
  constructor
  · intro h
    cases h with
    | list hitems => exact ⟨_, _, rfl, rfl, hitems⟩
  · rintro ⟨item, ws, rfl, rfl, hitems⟩
    exact .list hitems

theorem coerces_dict_iff {schema : Schema} {es : List (String × Value)} {w : Value} :
    Coerces schema (.dict es) w ↔
      ∃ fields ws, schema.fields? = some fields ∧ w = .dict ws ∧ CoercesEntries fields es ws := by
  constructor
  · intro h
    cases h with
    | dict hfields hentries => exact ⟨_, _, hfields, rfl, hentries⟩
  · rintro ⟨fields, ws, hfields, rfl, hentries⟩
    exact .dict hfields hentries

theorem coercesItems_cons_iff {item : Schema} {v : Value} {vs ws : List Value} :
    CoercesItems item (v :: vs) ws ↔
      ∃ w rest, ws = w :: rest ∧ Coerces item v w ∧ CoercesItems item vs rest := by
  constructor
  · intro h
    cases h with
    | cons hv hvs => exact ⟨_, _, rfl, hv, hvs⟩
  · rintro ⟨w, rest, rfl, hv, hvs⟩
    exact .cons hv hvs

theorem coercesEntries_cons_iff {fields : List (String × Schema)} {key : String} {v : Value}
    {es ws : List (String × Value)} :
    CoercesEntries fields ((key, v) :: es) ws ↔
      ∃ field w rest, Entries.get? key fields = some field ∧ ws = (key, w) :: rest ∧
        Coerces field v w ∧ CoercesEntries fields es rest := by
  constructor
  · intro h
    cases h with
    | cons hfield hv hes => exact ⟨_, _, _, hfield, rfl, hv, hes⟩
  · rintro ⟨field, w, rest, hfield, rfl, hv, hes⟩
    exact .cons hfield hv hes

open Schema in
mutual
theorem coerces_spelledOut {schema : Schema} {path : Path} (hnode : routeMaps.Within schema) :
    ∀ (v : Value) {v' w : Value}, SpelledOut v v' →
      (Coerces schema v' w ↔ Coerces schema v w ∧ Fitting (schema.integerLeaves path v'))
  | .null, _, _, h => by
    cases h
    exact (and_iff_left_of_imp (fitting_kept rfl rfl)).symm
  | .bool _, _, _, h => by
    cases h
    exact (and_iff_left_of_imp (fitting_kept rfl rfl)).symm
  | .str _, _, _, h => by
    cases h
    exact (and_iff_left_of_imp (fitting_kept rfl rfl)).symm
  | .num _, _, _, h => by
    cases h with
    | kept => exact (and_iff_left_of_imp (fitting_kept rfl rfl)).symm
    | integer hlow hhigh => exact coerces_integer hnode hlow hhigh
  | .list vs, _, _, h => by
    cases h with
    | kept hitems _ => cases hitems
    | list hitems =>
      rw [coerces_list_iff, coerces_list_iff]
      constructor
      · rintro ⟨item, ws, rfl, rfl, hcoerces⟩
        obtain ⟨hcoerces, hfits⟩ :=
          (coerces_spelledOutItems (.item hnode rfl) vs hitems).mp hcoerces
        exact ⟨⟨item, ws, rfl, rfl, hcoerces⟩, hfits⟩
      · rintro ⟨⟨item, ws, rfl, rfl, hcoerces⟩, hfits⟩
        exact ⟨item, ws, rfl, rfl,
          (coerces_spelledOutItems (.item hnode rfl) vs hitems).mpr ⟨hcoerces, hfits⟩⟩
  | .dict es, _, _, h => by
    cases h with
    | kept _ hentries => cases hentries
    | dict hentries =>
      rw [coerces_dict_iff, coerces_dict_iff, integerLeaves]
      constructor
      · rintro ⟨fields, ws, hfields, rfl, hcoerces⟩
        obtain ⟨hcoerces, hfits⟩ :=
          (coerces_spelledOutEntries hnode hfields es hentries).mp hcoerces
        rw [hfields]
        exact ⟨⟨fields, ws, rfl, rfl, hcoerces⟩, hfits⟩
      · rintro ⟨⟨fields, ws, hfields, rfl, hcoerces⟩, hfits⟩
        rw [hfields] at hfits
        exact ⟨fields, ws, hfields, rfl,
          (coerces_spelledOutEntries hnode hfields es hentries).mpr ⟨hcoerces, hfits⟩⟩
termination_by structural v => v
theorem coerces_spelledOutItems {item : Schema} {path : Path} {i : Nat}
    (hnode : routeMaps.Within item) :
    ∀ (vs : List Value) {vs' ws : List Value}, SpelledOutItems vs vs' →
      (CoercesItems item vs' ws ↔ CoercesItems item vs ws ∧ Fitting (integerItems item path i vs'))
  | [], _, _, h => by
    cases h
    exact (and_iff_left fitting_nil).symm
  | v :: vs, _, _, h => by
    cases h with
    | cons hv hvs =>
      rw [integerItems, fitting_append, coercesItems_cons_iff, coercesItems_cons_iff]
      constructor
      · rintro ⟨w, rest, rfl, hcoerces, hrest⟩
        obtain ⟨hcoerces, hfits⟩ := (coerces_spelledOut hnode v hv).mp hcoerces
        obtain ⟨hrest, hfit⟩ := (coerces_spelledOutItems hnode vs hvs).mp hrest
        exact ⟨⟨w, rest, rfl, hcoerces, hrest⟩, hfits, hfit⟩
      · rintro ⟨⟨w, rest, rfl, hcoerces, hrest⟩, hfits, hfit⟩
        exact ⟨w, rest, rfl, (coerces_spelledOut hnode v hv).mpr ⟨hcoerces, hfits⟩,
          (coerces_spelledOutItems hnode vs hvs).mpr ⟨hrest, hfit⟩⟩
termination_by structural vs => vs
theorem coerces_spelledOutEntries {schema : Schema} {fields : List (String × Schema)} {path : Path}
    (hnode : routeMaps.Within schema) (hfields : schema.fields? = some fields) :
    ∀ (es : List (String × Value)) {es' ws : List (String × Value)}, SpelledOutEntries es es' →
      (CoercesEntries fields es' ws ↔
        CoercesEntries fields es ws ∧ Fitting (integerEntries fields path es'))
  | [], _, _, h => by
    cases h
    exact (and_iff_left fitting_nil).symm
  | (key, v) :: es, _, _, h => by
    cases h with
    | cons hv hes =>
      rw [integerEntries, fitting_append, coercesEntries_cons_iff, coercesEntries_cons_iff]
      constructor
      · rintro ⟨field, w, rest, hfield, rfl, hcoerces, hrest⟩
        obtain ⟨hcoerces, hfits⟩ := (coerces_spelledOut (.field hnode hfields hfield) v hv).mp hcoerces
        obtain ⟨hrest, hfit⟩ := (coerces_spelledOutEntries hnode hfields es hes).mp hrest
        rw [hfield]
        exact ⟨⟨field, w, rest, rfl, rfl, hcoerces, hrest⟩, hfits, hfit⟩
      · rintro ⟨⟨field, w, rest, hfield, rfl, hcoerces, hrest⟩, hfits, hfit⟩
        rw [hfield] at hfits
        exact ⟨field, w, rest, hfield, rfl,
          (coerces_spelledOut (.field hnode hfields hfield) v hv).mpr ⟨hcoerces, hfits⟩,
          (coerces_spelledOutEntries hnode hfields es hes).mpr ⟨hrest, hfit⟩⟩
termination_by structural es => es
end

/-- **Numbers and their texts are checked alike, up to `2 ^ 63 - 1`.**  For every type in the schema
and every value, replacing integers by their texts keeps what the check returns, and whether it
returns anything, exactly when no text of an integer from `2 ^ 63` on has come to stand where an
integer is declared. -/
theorem validate_spelledOut {schema : Schema} (hnode : Schema.routeMaps.Within schema)
    {v v' : Value} (h : SpelledOut v v') (path : Path) (w : Value) :
    schema.validate path v' = .ok w ↔
      schema.validate path v = .ok w ∧
        ∀ leaf ∈ schema.integerLeaves path v', ¬ leaf.2.IsOversized := by
  have hsame : Coerces schema v' w ↔ Coerces schema v w ∧ Fitting (schema.integerLeaves path v') :=
    coerces_spelledOut hnode v h
  constructor
  · intro hvalid
    obtain ⟨hcoerces, hfits⟩ := hsame.mp (coerces_of_validate hvalid)
    exact ⟨validate_of_coerces hcoerces, hfits⟩
  · rintro ⟨hvalid, hfits⟩
    exact validate_of_coerces (hsame.mpr ⟨coerces_of_validate hvalid, hfits⟩)

/-- A policy with a name, a tag and a weight. -/
def weighted (name tag weight : Value) : Value :=
  .list [.dict [("name", name), ("global", .dict [("set", .dict [("tag", tag), ("weight", weight)])])]]

theorem spelledOut_weighted {name name' tag tag' weight weight' : Value}
    (hname : SpelledOut name name') (htag : SpelledOut tag tag')
    (hweight : SpelledOut weight weight') :
    SpelledOut (weighted name tag weight) (weighted name' tag' weight') :=
  have hset := SpelledOut.dict (.cons htag (.cons hweight .nil))
  .list (.cons (.dict (.cons hname (.cons (.dict (.cons hset .nil)) .nil))) .nil)

theorem validate_spelledOut_weighted :
    Schema.routeMaps.validate []
      (weighted (.str (integerText 18446744073709551615)) (.str (integerText 9223372036854775807))
        (.str (integerText (-9223372036854775808))))
      = .ok (weighted (.str "18446744073709551615") (.num (.int 9223372036854775807))
          (.num (.int (-9223372036854775808)))) := by
  have hspelled := spelledOut_weighted
    (.integer (n := 18446744073709551615) (by decide) (by decide))
    (.integer (n := 9223372036854775807) (by decide) (by decide))
    (.integer (n := -9223372036854775808) (by decide) (by decide))
  have hnumbers : Schema.routeMaps.validate []
      (weighted (.num (.int 18446744073709551615)) (.num (.int 9223372036854775807))
        (.num (.int (-9223372036854775808))))
      = .ok (weighted (.str "18446744073709551615") (.num (.int 9223372036854775807))
          (.num (.int (-9223372036854775808)))) := rfl
  refine (validate_spelledOut .root hspelled [] _).mpr ⟨hnumbers, ?_⟩
  refine List.forall_mem_cons.mpr ⟨?_, List.forall_mem_singleton.mpr ?_⟩
  · exact mt isOversized_integerText.mp (by decide)
  · exact mt isOversized_integerText.mp (by decide)

/-- One above the bound, the weight is taken as a number and refused as a text. -/
theorem oversized_text_refused :
    SpelledOut (weighted (.str "P") .null (.num (.int 9223372036854775808)))
      (weighted (.str "P") .null (.str "9223372036854775808")) ∧
    Schema.routeMaps.validate [] (weighted (.str "P") .null (.num (.int 9223372036854775808)))
      = .ok (weighted (.str "P") .null (.num (.int 9223372036854775808))) ∧
    Schema.routeMaps.validate [] (weighted (.str "P") .null (.str "9223372036854775808"))
      = .error (.invalidType [.index 0, .key "global", .key "set", .key "weight"] .integer
          (.str "9223372036854775808")) := by
  have htext : integerText 9223372036854775808 = "9223372036854775808" := by decide +kernel
  have hweight : SpelledOut (.num (.int 9223372036854775808)) (.str "9223372036854775808") := by
    rw [← htext]
    exact .integer (by decide) (by decide)
  refine ⟨spelledOut_weighted (.kept rfl rfl) (.kept rfl rfl) hweight, rfl, ?_⟩
  decide +kernel

end RoutePolicy
