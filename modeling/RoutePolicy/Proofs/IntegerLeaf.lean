import RoutePolicy.Proofs.Draft
import RoutePolicy.Proofs.LineText
import RoutePolicy.Proofs.Pruning

/-!
# The integers of a document

The one thing that can be wrong with a draft is a number: its digits are of some script and of any
length, while an integer is read from ASCII digits and has 64 bits.

* `Schema.integerLeaves`  the places where the schema has an integer, with what stands there;
* `Value.numbers`         the numbers in a value, with the keys above them;
* `Draft.checked`         checking a draft either names one of its integer leaves that cannot be
                          read, or turns all of them into the numbers they denote;
* `numbers_eq_leaves`     the numbers are leaves, and so pruning keeps them.
-/

namespace RoutePolicy

/-! ## Reading digits -/

namespace Text

theorem digits_apart : ∀ z ∈ digitZeros, ∀ r ∈ blankRanges, z + 10 ≤ r.1 ∨ r.2 < z := by
  decide +kernel

theorem isBlank_of_isDigit {c : Char} (h : isDigit c = true) : isBlank c = false := by
  obtain ⟨z, hz, hc⟩ := List.any_eq_true.mp h
  rw [isBlank, List.any_eq_false]
  intro r hr hin
  have hapart := digits_apart z hz r hr
  simp only [Bool.and_eq_true, decide_eq_true_eq] at hc hin
  omega

end Text

/-- The number that a text of decimal digits denotes. -/
def Value.decimal : Value → Nat
  | .str s => Nat.ofDigitChars 10 s.toList 0
  | _ => 0

/-- A text of ASCII digits, and the number has at most 63 bits. -/
def Value.IsCount : Value → Prop
  | .str s => s.toList ≠ [] ∧ (∀ c ∈ s.toList, Text.isAsciiDigit c = true) ∧
      (Value.str s).decimal < 9223372036854775808
  | _ => False

theorem readInteger?_of_digits {s : String} (h : Form.number.Accepts s.toList) :
    readInteger? s = ((readDigits? s.toList).map fun n : Nat => (n : Int)).filter fun n =>
      -9223372036854775808 ≤ n && n ≤ 9223372036854775807 := by
  have htrim : Text.trim s.toList = s.toList :=
    Text.trim_of_solid fun c hc => Text.isBlank_of_isDigit (h.2 c hc)
  -- a sign is no digit
  have hplus : Text.isDigit '+' = false := by decide +kernel
  have hminus : Text.isDigit '-' = false := by decide +kernel
  simp only [readInteger?, htrim]
  split
  · rename_i cs hcs
    have := h.2 '+' (by rw [hcs]; exact List.mem_cons_self)
    rw [hplus] at this
    exact absurd this (by simp)
  · rename_i cs hcs
    have := h.2 '-' (by rw [hcs]; exact List.mem_cons_self)
    rw [hminus] at this
    exact absurd this (by simp)
  · cases readDigits? s.toList <;> rfl

theorem readInteger?_of_isCount {s : String} (h : (Value.str s).IsCount) :
    readInteger? s = some ((Value.str s).decimal : Int) := by
  obtain ⟨hne, hascii, hlt⟩ := h
  have hdigits : readDigits? s.toList = some (Value.str s).decimal :=
    if_pos ⟨hne, List.all_eq_true.mpr hascii⟩
  rw [readInteger?_of_digits ⟨hne, fun c hc => Text.isDigit_of_isAsciiDigit (hascii c hc)⟩, hdigits]
  rw [Option.map_some, Option.filter_some, if_pos]
  simp only [Bool.and_eq_true, decide_eq_true_eq]
  omega

theorem isCount_of_readInteger? {s : String} (h : Form.number.Accepts s.toList) {n : Int}
    (hread : readInteger? s = some n) : (Value.str s).IsCount ∧ n = (Value.str s).decimal := by
  rw [readInteger?_of_digits h] at hread
  obtain ⟨hmap, hbound⟩ := Option.filter_eq_some_iff.mp hread
  obtain ⟨m, hdigits, rfl⟩ := Option.map_eq_some_iff.mp hmap
  simp only [readDigits?] at hdigits
  split at hdigits
  · rename_i hascii
    have hm : m = (Value.str s).decimal := (Option.some.inj hdigits).symm
    simp only [Bool.and_eq_true, decide_eq_true_eq] at hbound
    refine ⟨⟨hascii.1, List.all_eq_true.mp hascii.2, ?_⟩, by rw [hm]⟩
    rw [← hm]
    omega
  · simp at hdigits

/-- Digits that are no count are foreign or too large. -/
theorem foreign_or_large {s : String} (h : Form.number.Accepts s.toList)
    (hcount : ¬ (Value.str s).IsCount) :
    (∃ c ∈ s.toList, Text.isAsciiDigit c = false) ∨
      9223372036854775808 ≤ (Value.str s).decimal := by
  by_cases hascii : ∀ c ∈ s.toList, Text.isAsciiDigit c = true
  · right
    apply Nat.le_of_not_lt
    exact fun hlt => hcount ⟨h.1, hascii, hlt⟩
  · left
    simpa using hascii

/-! ## Integer leaves and numbers -/

namespace Schema

/-- A leaf of the document, if the schema has an integer there. -/
def ownInteger (schema : Schema) (path : Path) (v : Value) : List (Path × Value) :=
  match schema with
  | .int => [(path, v)]
  | _ => []

mutual
/-- The leaves of a document where the schema has an integer, in document order. -/
def integerLeaves (schema : Schema) (path : Path) : Value → List (Path × Value)
  | .list items =>
    match schema.item? with
    | some item => integerItems item path 0 items
    | none => []
  | .dict entries =>
    match schema.fields? with
    | some fields => integerEntries fields path entries
    | none => []
  | .null => schema.ownInteger path .null
  | .bool b => schema.ownInteger path (.bool b)
  | .num n => schema.ownInteger path (.num n)
  | .str s => schema.ownInteger path (.str s)
/-- Those of the items of a list, from the `i`-th on. -/
def integerItems (item : Schema) (path : Path) (i : Nat) : List Value → List (Path × Value)
  | [] => []
  | v :: vs => integerLeaves item (path ++ [.index i]) v ++ integerItems item path (i + 1) vs
/-- Those of the entries of a mapping. -/
def integerEntries (fields : List (String × Schema)) (path : Path) :
    List (String × Value) → List (Path × Value)
  | [] => []
  | (key, v) :: es =>
    (match Entries.get? key fields with
      | some schema => integerLeaves schema (path ++ [.key key]) v
      | none => [])
      ++ integerEntries fields path es
end

end Schema

/-- The keys on a path. -/
def Path.keys (path : Path) : List String :=
  path.filterMap fun step =>
    match step with
    | .key key => some key
    | .index _ => none

theorem Path.keys_key (path : Path) (key : String) :
    Path.keys (path ++ [.key key]) = path.keys ++ [key] := by
  simp [Path.keys]

theorem Path.keys_index (path : Path) (i : Nat) : Path.keys (path ++ [.index i]) = path.keys := by
  simp [Path.keys]

namespace Value

mutual
/-- The numbers in a value, in document order, each with the keys above it. -/
def numbers (above : List String) : Value → List (List String × Number)
  | .num n => [(above, n)]
  | .list items => itemNumbers above items
  | .dict entries => entryNumbers above entries
  | .null => []
  | .bool _ => []
  | .str _ => []
/-- Those in the items of a list. -/
def itemNumbers (above : List String) : List Value → List (List String × Number)
  | [] => []
  | v :: vs => numbers above v ++ itemNumbers above vs
/-- Those in the entries of a mapping. -/
def entryNumbers (above : List String) : List (String × Value) → List (List String × Number)
  | [] => []
  | (key, v) :: es => numbers (above ++ [key]) v ++ entryNumbers above es
end

end Value

/-- The number that a leaf denotes, with the keys above it. -/
def leafNumber (leaf : Path × Value) : List String × Number :=
  (leaf.1.keys, .int leaf.2.decimal)

/-! ## Checking drafts -/

/-- The fault is that of a leaf whose digits cannot be read. -/
def FaultAt (fault : Fault) (leaves : List (Path × Value)) : Prop :=
  ∃ path s, fault = .invalidType path .integer (.str s) ∧ (path, .str s) ∈ leaves ∧
    Form.number.Accepts s.toList ∧ ¬ (Value.str s).IsCount

/-- Every leaf is a count, and the numbers are those that the leaves denote. -/
def ReadAs (numbers : List (List String × Number)) (leaves : List (Path × Value)) : Prop :=
  (∀ leaf ∈ leaves, leaf.2.IsCount) ∧ numbers = leaves.map leafNumber

theorem FaultAt.left {fault : Fault} {a : List (Path × Value)} (h : FaultAt fault a)
    (b : List (Path × Value)) : FaultAt fault (a ++ b) := by
  obtain ⟨path, s, hfault, hmem, hrest⟩ := h
  exact ⟨path, s, hfault, List.mem_append_left b hmem, hrest⟩

theorem FaultAt.right {fault : Fault} {b : List (Path × Value)} (h : FaultAt fault b)
    (a : List (Path × Value)) : FaultAt fault (a ++ b) := by
  obtain ⟨path, s, hfault, hmem, hrest⟩ := h
  exact ⟨path, s, hfault, List.mem_append_right a hmem, hrest⟩

theorem ReadAs.nil : ReadAs [] [] :=
  ⟨fun _ h => absurd h (by simp), rfl⟩

theorem ReadAs.append {m n : List (List String × Number)} {a b : List (Path × Value)}
    (ha : ReadAs m a) (hb : ReadAs n b) : ReadAs (m ++ n) (a ++ b) := by
  refine ⟨fun leaf hleaf => ?_, by rw [ha.2, hb.2, List.map_append]⟩
  rcases List.mem_append.mp hleaf with hleaf | hleaf
  · exact ha.1 leaf hleaf
  · exact hb.1 leaf hleaf

/-- A check fails at an integer leaf that cannot be read, or reads them all. -/
def Reads {α : Type} (result : Except Fault α) (numbers : α → List (List String × Number))
    (leaves : List (Path × Value)) : Prop :=
  match result with
  | .error fault => FaultAt fault leaves
  | .ok a => ReadAs (numbers a) leaves

theorem Reads.map {α β : Type} {x : Except Fault α} {f : α → β}
    {numbers : β → List (List String × Number)} {leaves : List (Path × Value)}
    (h : Reads x (fun a => numbers (f a)) leaves) : Reads (x.map f) numbers leaves := by
  cases x with
  | error fault => exact h
  | ok a => exact h

/-- Two checks, the second made only if the first passes. -/
theorem Reads.cons {α β γ : Type} {x : Except Fault α} {y : Except Fault β} {f : α → β → γ}
    {m : α → List (List String × Number)} {n : β → List (List String × Number)}
    {k : γ → List (List String × Number)} {a b : List (Path × Value)}
    (hx : Reads x m a) (hy : Reads y n b) (hk : ∀ u w, k (f u w) = m u ++ n w) :
    Reads (x.bind fun u => y.map (f u)) k (a ++ b) := by
  cases x with
  | error fault => exact FaultAt.left hx b
  | ok u =>
    cases y with
    | error fault => exact FaultAt.right hy a
    | ok w =>
      show ReadAs (k (f u w)) (a ++ b)
      rw [hk]
      exact ReadAs.append hx hy

/-- Checking a value, wherever it stands, reads its integer leaves. -/
def Checked (schema : Schema) (v : Value) : Prop :=
  ∀ path, Reads (schema.validate path v) (Value.numbers path.keys) (schema.integerLeaves path v)

namespace Checked
open Schema

/-- a leaf that is kept as it is -/
theorem of_kept {schema : Schema} {v : Value} (hok : ∀ path, schema.validate path v = .ok v)
    (hnumbers : ∀ above, v.numbers above = []) (hleaves : ∀ path, schema.integerLeaves path v = []) :
    Checked schema v := by
  intro path
  rw [hok, hleaves]
  show ReadAs (v.numbers path.keys) []
  rw [hnumbers]
  exact .nil

theorem of_digits {s : String} (h : Form.number.Accepts s.toList) : Checked .int (.str s) := by
  intro path
  simp only [validate, validateLeaf]
  split
  · rename_i n hread
    obtain ⟨hcount, rfl⟩ := isCount_of_readInteger? h hread
    refine ⟨fun leaf hleaf => ?_, rfl⟩
    rw [List.mem_singleton.mp hleaf]
    exact hcount
  · rename_i hread
    refine ⟨path, s, rfl, List.mem_singleton_self _, h, fun hcount => ?_⟩
    rw [readInteger?_of_isCount hcount] at hread
    exact absurd hread (by simp)

theorem items {item : Schema} {items : List Value} (h : ∀ v ∈ items, Checked item v) (path : Path)
    (i : Nat) :
    Reads (validateItems item path i items) (Value.itemNumbers path.keys)
      (integerItems item path i items) := by
  induction items generalizing i with
  | nil => exact ReadAs.nil
  | cons v vs ih =>
    have hfirst := h v List.mem_cons_self (path ++ [.index i])
    have hrest := ih (fun w hw => h w (List.mem_cons_of_mem _ hw)) (i + 1)
    rw [Path.keys_index] at hfirst
    rw [validateItems_cons, integerItems]
    exact hfirst.cons hrest fun _ _ => rfl

theorem entries {fields : List (String × Schema)} {entries : List (String × Value)}
    (hkeys : ∀ e ∈ entries, (Entries.get? e.1 fields).isSome = true)
    (h : ∀ e ∈ entries, ∀ field, Entries.get? e.1 fields = some field → Checked field e.2)
    (path : Path) :
    Reads (validateEntries fields path entries) (Value.entryNumbers path.keys)
      (integerEntries fields path entries) := by
  induction entries with
  | nil => exact ReadAs.nil
  | cons e es ih =>
    obtain ⟨key, v⟩ := e
    obtain ⟨field, hfield⟩ := Option.isSome_iff_exists.mp (hkeys _ List.mem_cons_self)
    have hfield : Entries.get? key fields = some field := hfield
    have hfirst := h _ List.mem_cons_self field hfield (path ++ [.key key])
    have hrest := ih (fun e he => hkeys e (List.mem_cons_of_mem _ he))
      (fun e he => h e (List.mem_cons_of_mem _ he))
    rw [Path.keys_key] at hfirst
    rw [validateEntries_cons hfield]
    simp only [integerEntries, hfield]
    exact hfirst.cons hrest fun _ _ => rfl

end Checked

theorem Draft.checked {schema : Schema} {v : Value} (h : Draft schema v) : Checked schema v := by
  induction h with
  | str s => exact .of_kept (fun _ => rfl) (fun _ => rfl) (fun _ => rfl)
  | int h => exact .of_digits h
  | bool b => exact .of_kept (fun _ => rfl) (fun _ => rfl) (fun _ => rfl)
  | choice hmem =>
    refine .of_kept (fun path => ?_) (fun _ => rfl) (fun _ => rfl)
    simp [Schema.validate, Schema.validateLeaf, hmem]
  | list _ ih =>
    intro path
    exact Reads.map (f := Value.list) (Checked.items ih path 0)
  | @dict schema fields entries hfields hkeys _ ih =>
    intro path
    rw [Schema.validate, Schema.integerLeaves, hfields]
    exact Reads.map (f := Value.dict) (Checked.entries hkeys ih path)

/-! ## Pruning -/

namespace Value

/-- The number at a leaf, if it is one. -/
def numberAt? (leaf : List String × Value) : Option (List String × Number) :=
  match leaf.2 with
  | .num n => some (leaf.1, n)
  | _ => none

mutual
theorem numbers_eq_leaves (above : List String) :
    ∀ v : Value, v.numbers above = (v.leaves above).filterMap numberAt?
  | .null => rfl
  | .bool _ => rfl
  | .num _ => rfl
  | .str s => by
    rw [leaves]
    split <;> rfl
  | .list items => itemNumbers_eq_leaves above items
  | .dict entries => entryNumbers_eq_leaves above entries
theorem itemNumbers_eq_leaves (above : List String) : ∀ items : List Value,
    itemNumbers above items = (itemLeaves above items).filterMap numberAt?
  | [] => rfl
  | v :: vs => by
    rw [itemNumbers, numbers_eq_leaves above v, itemNumbers_eq_leaves above vs, itemLeaves,
      List.filterMap_append]
theorem entryNumbers_eq_leaves (above : List String) : ∀ entries : List (String × Value),
    entryNumbers above entries = (entryLeaves above entries).filterMap numberAt?
  | [] => rfl
  | (key, v) :: es => by
    rw [entryNumbers, numbers_eq_leaves (above ++ [key]) v, entryNumbers_eq_leaves above es,
      entryLeaves, List.filterMap_append]
end

theorem itemNumbers_prune (above : List String) (items : List Value) :
    itemNumbers above (pruneItems items) = itemNumbers above items := by
  rw [itemNumbers_eq_leaves, itemNumbers_eq_leaves, itemLeaves_prune]

end Value

/-! ## From documents to facts -/

/-- The integer leaves of documents. -/
def documentIntegers (documents : List (List (String × Value))) : List (Path × Value) :=
  Schema.routeMaps.integerLeaves [] (.list (documents.map .dict))

theorem traces_lenient (inputs : List (String × String)) :
    ∃ traces, (inputs.mapM fun input => trace false input.1 input.2) = .ok traces ∧
      ∀ t ∈ traces, ∃ name scope, t.document = document name scope := by
  refine ⟨inputs.map fun input =>
    let body := bodyLines input.1 input.2
    { name := input.1, scope := .ofLines body, document := document input.1 (.ofLines body),
      tally := .ofScope body.length (.ofLines body) }, ?_, ?_⟩
  · exact List.mapM_pure
  · intro t ht
    obtain ⟨input, _, rfl⟩ := List.mem_map.mp ht
    exact ⟨_, _, rfl⟩

/-- **The rules and the schema agree.**  Policies read from any texts fail the check only at an
integer field, where digits stand that are foreign or too large; they pass it exactly when every
integer leaf is a text of ASCII digits below `2 ^ 63`; and then the numbers of the facts are, in
order and under the same keys, those that the leaves denote. -/
theorem finish_traces (inputs : List (String × String)) :
    ∃ traces, (inputs.mapM fun input => trace false input.1 input.2) = .ok traces ∧
      (∀ e, finish (traces.map Trace.document) = .error e →
        ∃ path s, e = .invalid (.invalidType path .integer (.str s)) ∧
          (path, .str s) ∈ documentIntegers (traces.map Trace.document) ∧
          s.toList ≠ [] ∧ (∀ c ∈ s.toList, Text.isDigit c = true) ∧
          ((∃ c ∈ s.toList, Text.isAsciiDigit c = false) ∨
            9223372036854775808 ≤ (Value.str s).decimal)) ∧
      ((∃ facts, finish (traces.map Trace.document) = .ok facts) ↔
        ∀ leaf ∈ documentIntegers (traces.map Trace.document), leaf.2.IsCount) ∧
      (∀ facts, finish (traces.map Trace.document) = .ok facts →
        (Value.list facts).numbers []
          = (documentIntegers (traces.map Trace.document)).map leafNumber) := by
  obtain ⟨traces, htraces, hdocuments⟩ := traces_lenient inputs
  refine ⟨traces, htraces, ?_⟩
  generalize hdocs : traces.map Trace.document = documents
  have hdraft : ∀ v ∈ documents.map Value.dict, Checked .routeMap v := by
    intro v hv
    obtain ⟨d, hd, rfl⟩ := List.mem_map.mp hv
    rw [← hdocs] at hd
    obtain ⟨t, ht, rfl⟩ := List.mem_map.mp hd
    obtain ⟨name, scope, heq⟩ := hdocuments t ht
    rw [heq]
    exact (draft_document name scope).checked
  have hleaves : documentIntegers documents
      = Schema.integerItems .routeMap [] 0 (documents.map .dict) := rfl
  have hreads := Checked.items hdraft [] 0
  rw [finish_eq, hleaves]
  cases hvalid : Schema.validateItems .routeMap [] 0 (documents.map .dict) with
  | error fault =>
    rw [hvalid] at hreads
    obtain ⟨path, s, rfl, hmem, haccepts, hcount⟩ := hreads
    refine ⟨fun e he => ?_, ?_, fun facts hfacts => absurd hfacts (by simp)⟩
    · exact ⟨path, s, (Except.error.inj he).symm, hmem, haccepts.1, haccepts.2,
        foreign_or_large haccepts hcount⟩
    · refine ⟨?_, fun hall => absurd (hall _ hmem) hcount⟩
      rintro ⟨facts, hfacts⟩
      exact absurd hfacts (by simp)
  | ok values =>
    rw [hvalid] at hreads
    obtain ⟨hall, hnumbers⟩ := hreads
    refine ⟨fun e he => absurd he (by simp), ⟨fun _ => hall, fun _ => ⟨_, rfl⟩⟩, ?_⟩
    intro facts hfacts
    rw [← Except.ok.inj hfacts, ← hnumbers]
    exact Value.itemNumbers_prune [] values

end RoutePolicy
