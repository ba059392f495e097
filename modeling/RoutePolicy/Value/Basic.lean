import RoutePolicy.Value.Entries
import RoutePolicy.Value.Number

/-!
# Values

A document is a tree of values: null, booleans, numbers, texts, lists and mappings.  The order of a
mapping's entries is part of the value, so two mappings with the same entries in another order are
different values.

Equality of values is decided by `Value.same`, which walks both trees together.
-/

namespace RoutePolicy

/-- A document, or a part of one.  The entries of a mapping are in order. -/
inductive Value where
  | null
  | bool (b : Bool)
  | num (n : Number)
  | str (s : String)
  | list (items : List Value)
  | dict (entries : List (String × Value))
deriving Inhabited

namespace Value

/-! ## Equality -/

mutual
/-- Whether two values are equal. -/
def same : Value → Value → Bool
  | .null, .null => true
  | .bool a, .bool b => a == b
  | .num a, .num b => a == b
  | .str a, .str b => a == b
  | .list a, .list b => sameItems a b
  | .dict a, .dict b => sameEntries a b
  | _, _ => false
/-- Whether two lists of values are equal. -/
def sameItems : List Value → List Value → Bool
  | [], [] => true
  | x :: xs, y :: ys => same x y && sameItems xs ys
  | _, _ => false
/-- Whether two lists of entries are equal. -/
def sameEntries : List (String × Value) → List (String × Value) → Bool
  | [], [] => true
  | (k, x) :: xs, (l, y) :: ys => k == l && same x y && sameEntries xs ys
  | _, _ => false
end

mutual
theorem same_iff : ∀ a b : Value, same a b = true ↔ a = b
  | .null, b => by cases b <;> simp [same]
  | .bool a, b => by cases b <;> simp [same]
  | .num a, b => by cases b <;> simp [same]
  | .str a, b => by cases b <;> simp [same]
  | .list a, b => by
    cases b with
    | list b => simp [same, sameItems_iff a b]
    | _ => simp [same]
  | .dict a, b => by
    cases b with
    | dict b => simp [same, sameEntries_iff a b]
    | _ => simp [same]
theorem sameItems_iff : ∀ a b : List Value, sameItems a b = true ↔ a = b
  | [], b => by cases b <;> simp [sameItems]
  | x :: xs, [] => by simp [sameItems]
  | x :: xs, y :: ys => by simp [sameItems, same_iff x y, sameItems_iff xs ys]
theorem sameEntries_iff : ∀ a b : List (String × Value), sameEntries a b = true ↔ a = b
  | [], b => by cases b <;> simp [sameEntries]
  | (k, x) :: xs, [] => by simp [sameEntries]
  | (k, x) :: xs, (l, y) :: ys => by
    simp [sameEntries, same_iff x y, sameEntries_iff xs ys, and_assoc]
end

instance : DecidableEq Value := fun a b => decidable_of_iff _ (same_iff a b)

/-! ## Views -/

/-- The items, if the value is a list. -/
def items? : Value → Option (List Value)
  | .list items => some items
  | _ => none

/-- The entries, if the value is a mapping. -/
def entries? : Value → Option (List (String × Value))
  | .dict entries => some entries
  | _ => none

/-- The text, if the value is one. -/
def str? : Value → Option String
  | .str s => some s
  | _ => none

/-- A list of texts. -/
def ofStrings (texts : List String) : Value :=
  .list (texts.map .str)

/-- A count. -/
def ofNat (n : Nat) : Value :=
  .num (.int n)

end Value

end RoutePolicy
