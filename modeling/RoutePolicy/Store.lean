import RoutePolicy.Facts

/-!
# The facts store

A store keeps one value for each resource, in order of first write.  Gathered facts go under
`route_maps`.  Every policy is fetched before the store is touched, so a failed fetch leaves the
old facts in place; they are removed before the new documents are checked, so after a failed check
there are none.
-/

namespace RoutePolicy

/-- The values of resources, in order. -/
structure Store where
  resources : List (String × Value) := []
deriving DecidableEq

namespace Store

/-- The resource that gathered facts go under. -/
def routeMapsKey : String := "route_maps"

/-- The value of a resource. -/
def get? (store : Store) (resource : String) : Option Value :=
  Entries.get? resource store.resources

/-- Writes a resource. -/
def insert (store : Store) (resource : String) (value : Value) : Store :=
  { resources := Entries.insert resource value store.resources }

/-- Removes a resource. -/
def erase (store : Store) (resource : String) : Store :=
  { resources := Entries.erase resource store.resources }

/-- The gathered facts, if there are some. -/
def routeMaps? (store : Store) : Option (List Value) :=
  (store.get? routeMapsKey).bind Value.items?

/-- The store as a mapping. -/
def toValue (store : Store) : Value :=
  .dict store.resources

/-- Replaces the gathered facts by those of a device. -/
def populate {σ : Type} (store : Store) (device : Device σ) (strict : Bool)
    (given : Option String) (s : σ) : (Except Error Unit × Store) × σ :=
  match collect device strict given s with
  | (.error e, s) => ((.error e, store), s)
  | (.ok traces, s) =>
    let cleared := store.erase routeMapsKey
    match factsOf traces with
    | .error e => ((.error e, cleared), s)
    | .ok facts => ((.ok (), cleared.insert routeMapsKey (.list facts)), s)

end Store

end RoutePolicy
