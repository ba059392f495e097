/-!
# Ordered entries

A mapping is the list of its entries, in the order in which the keys were first written.

* `insert`   writing a present key keeps its place, a new key goes to the end;
* `erase`    the last entry moves into the place of the erased one.

`get?_insert_self`, `get?_insert_ne` and `keys_insert` say what writing does to reading and to the
order of the keys.
-/

namespace RoutePolicy.Entries

variable {α : Type}

/-- The keys, in order. -/
def keys (entries : List (String × α)) : List String :=
  entries.map Prod.fst

/-- The value of the first entry with this key. -/
def get? (key : String) : List (String × α) → Option α
  | [] => none
  | (k, v) :: rest => if k = key then some v else get? key rest

/-- Writes a key. -/
def insert (key : String) (value : α) : List (String × α) → List (String × α)
  | [] => [(key, value)]
  | (k, v) :: rest => if k = key then (k, value) :: rest else (k, v) :: insert key value rest

/-- Puts the last entry of a list in front of the others. -/
def lastFirst (entries : List α) : List α :=
  match entries.getLast? with
  | none => []
  | some e => e :: entries.dropLast

/-- Removes a key; the last entry takes its place. -/
def erase (key : String) : List (String × α) → List (String × α)
  | [] => []
  | (k, v) :: rest => if k = key then lastFirst rest else (k, v) :: erase key rest

/-! ## Reading after writing -/

@[simp] theorem get?_nil (key : String) : get? key ([] : List (String × α)) = none := rfl

theorem get?_eq_none_iff {key : String} {entries : List (String × α)} :
    get? key entries = none ↔ key ∉ keys entries := by
  induction entries with
  | nil => simp [keys]
  | cons e rest ih =>
    obtain ⟨k, v⟩ := e
    by_cases hk : k = key
    · simp [get?, keys, hk]
    · rw [get?, if_neg hk, ih, keys, keys, List.map_cons, List.mem_cons, or_iff_right (Ne.symm hk)]

theorem get?_insert_self (key : String) (value : α) (entries : List (String × α)) :
    get? key (insert key value entries) = some value := by
  induction entries with
  | nil => simp [insert, get?]
  | cons e rest ih =>
    obtain ⟨k, v⟩ := e
    by_cases h : k = key <;> simp [insert, get?, h, ih]

theorem get?_insert_ne {key other : String} (h : other ≠ key) (value : α)
    (entries : List (String × α)) :
    get? other (insert key value entries) = get? other entries := by
  induction entries with
  | nil => simp [insert, get?, Ne.symm h]
  | cons e rest ih =>
    obtain ⟨k, v⟩ := e
    by_cases hk : k = key
    · subst hk
      simp [insert, get?, Ne.symm h]
    · simp [insert, get?, hk, ih]

theorem get?_append (key : String) (a b : List (String × α)) :
    get? key (a ++ b) = (get? key a).or (get? key b) := by
  induction a with
  | nil => rfl
  | cons e a ih =>
    rw [List.cons_append, get?, get?, ih]
    split <;> rfl

/-- A new key goes to the end. -/
theorem insert_of_not_mem {key : String} {entries : List (String × α)} (h : key ∉ keys entries)
    (value : α) : insert key value entries = entries ++ [(key, value)] := by
  induction entries with
  | nil => rfl
  | cons e rest ih =>
    obtain ⟨k, v⟩ := e
    obtain ⟨hk, hrest⟩ := not_or.mp (mt List.mem_cons.mpr h)
    rw [insert, if_neg (Ne.symm hk), ih hrest, List.cons_append]

/-- Writing adds the key at the end when it is new and changes no key otherwise. -/
theorem keys_insert (key : String) (value : α) (entries : List (String × α)) :
    keys (insert key value entries) =
      if key ∈ keys entries then keys entries else keys entries ++ [key] := by
  induction entries with
  | nil => simp [insert, keys]
  | cons e rest ih =>
    obtain ⟨k, v⟩ := e
    by_cases hk : k = key
    · subst hk
      simp [insert, keys]
    · have hk' : key ≠ k := fun h => hk h.symm
      simp only [keys, List.map_cons, List.mem_cons, hk', false_or, insert, hk, if_false] at ih ⊢
      rw [ih]
      by_cases h : key ∈ rest.map Prod.fst <;> simp [h]

example : erase "a" [("a", 1), ("b", 2), ("c", 3)] = [("c", 3), ("b", 2)] := by decide
example : erase "c" [("a", 1), ("b", 2), ("c", 3)] = [("a", 1), ("b", 2)] := by decide

end RoutePolicy.Entries
