import RoutePolicy.Value.Basic

/-!
# Pruning

Facts hold no placeholders.  `prune?` drops null, the empty text, the empty list and the empty
mapping at every depth, and a list or mapping that has nothing left goes too.  `false` and `0` are
values and stay.
-/

namespace RoutePolicy.Value

mutual
/-- What is left of a value, if anything is. -/
def prune? : Value → Option Value
  | .null => none
  | .bool b => some (.bool b)
  | .num n => some (.num n)
  | .str s => if s = "" then none else some (.str s)
  | .list items =>
    match pruneItems items with
    | [] => none
    | v :: vs => some (.list (v :: vs))
  | .dict entries =>
    match pruneEntries entries with
    | [] => none
    | e :: es => some (.dict (e :: es))
/-- The items that have something left. -/
def pruneItems : List Value → List Value
  | [] => []
  | v :: vs =>
    match v.prune? with
    | none => pruneItems vs
    | some w => w :: pruneItems vs
/-- The entries whose value has something left. -/
def pruneEntries : List (String × Value) → List (String × Value)
  | [] => []
  | (k, v) :: es =>
    match v.prune? with
    | none => pruneEntries es
    | some w => (k, w) :: pruneEntries es
end

/-- A value without its empty parts; null when nothing is left. -/
def prune (v : Value) : Value :=
  v.prune?.getD .null

end RoutePolicy.Value
