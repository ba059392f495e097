import RoutePolicy.Value.Basic

/-!
# Merging

Each recognised line of a block contributes a small mapping; the block is what they merge to.

* a mapping merges into a mapping key by key;
* a list is appended to a list;
* any other value takes the place of what was there.

So a second `set weight` replaces the first and leaves the other keys of `set` alone, while `apply`
lines pile up in order.
-/

namespace RoutePolicy.Value

mutual
/-- What a key holds after `v` was written over `old`. -/
def mergeValue (old : Value) : Value → Value
  | .dict entries =>
    match old with
    | .dict acc => .dict (merge acc entries)
    | _ => .dict entries
  | .list items =>
    match old with
    | .list acc => .list (acc ++ items)
    | _ => .list items
  | v => v
/-- Writes the entries of a fragment, one after the other, into a mapping. -/
def merge (acc : List (String × Value)) : List (String × Value) → List (String × Value)
  | [] => acc
  | (key, v) :: rest =>
    let new := match Entries.get? key acc with
      | some old => mergeValue old v
      | none => v
    merge (Entries.insert key new acc) rest
end

@[simp] theorem merge_nil (acc : List (String × Value)) : merge acc [] = acc := by
  simp [merge]

end RoutePolicy.Value
