import RoutePolicy.Document.Tally
import RoutePolicy.Proofs.Merging

/-!
# What a document is made of

A scope resolves to a mapping with at most four keys.  `Scope.Resolved` says which, in which order
and with which values, by what can be read from the mapping and without building it; it leaves no
choice (`Level.Resolved.unique`), and every document has it (`Scope.resolved_iff`).

The same mapping can be built without recursion into the scope: each level on its own, in one pass
over its branches (`Level.walk`), and then the levels hung below each other from the last one up
(`nest`).  `nest_walk` says that this is the document too.

`Value.blocks` collects the blocks of branches from a finished document; they are the blocks of all
branches of the scope, each once (`blocks_document`, `placed_perm`).
-/

namespace RoutePolicy

open Value

/-! ## The first `if` of a level -/

/-- Branches told apart: the first that an `if` opens, and all others in their order. -/
inductive FirstIf : List Branch → Option Branch → List Branch → Prop where
  /-- no `if` at all -/
  | absent {branches : List Branch} :
      (∀ b ∈ branches, b.kind = .elseIf) → FirstIf branches none branches
  /-- an `if` with none before it -/
  | present {before after : List Branch} {b : Branch} :
      (∀ other ∈ before, other.kind = .elseIf) → b.kind = .ifThen →
      FirstIf (before ++ b :: after) (some b) (before ++ after)

def Branch.isIf (b : Branch) : Bool :=
  b.kind = .ifThen

theorem Branch.not_isIf_iff {b : Branch} : ¬ b.isIf = true ↔ b.kind = .elseIf := by
  unfold isIf
  cases h : b.kind <;> simp

theorem firstIf_iff {l : Level} {first : Option Branch} {others : List Branch} :
    FirstIf l.branches first others ↔ first = l.ifBranch? ∧ others = l.otherBranches := by
  show _ ↔ first = l.branches.find? Branch.isIf ∧ others = l.branches.eraseP Branch.isIf
  generalize l.branches = branches
  constructor
  · intro h
    cases h with
    | absent helse =>
      have hnot : ∀ b ∈ others, ¬ b.isIf = true := fun b hb => Branch.not_isIf_iff.mpr (helse b hb)
      exact ⟨(List.find?_eq_none.mpr hnot).symm, (List.eraseP_of_forall_not hnot).symm⟩
    | @present before after b helse hif =>
      have hnot : ∀ other ∈ before, ¬ other.isIf = true := fun other hother =>
        Branch.not_isIf_iff.mpr (helse other hother)
      have hb : b.isIf = true := decide_eq_true hif
      constructor
      · rw [List.find?_append, List.find?_eq_none.mpr hnot, List.find?_cons_of_pos hb]
        rfl
      · rw [List.eraseP_append_right _ hnot, List.eraseP_cons_of_pos hb]
  · rintro ⟨rfl, rfl⟩
    cases hfind : branches.find? Branch.isIf with
    | none =>
      have hnot := List.find?_eq_none.mp hfind
      rw [List.eraseP_of_forall_not hnot]
      exact .absent fun b hb => Branch.not_isIf_iff.mp (hnot b hb)
    | some b =>
      obtain ⟨hb, before, after, rfl, hbefore⟩ := List.find?_eq_some_iff_append.mp hfind
      have hnot : ∀ other ∈ before, ¬ other.isIf = true := fun other hother => by
        simpa using hbefore other hother
      rw [List.eraseP_append_right _ hnot, List.eraseP_cons_of_pos hb]
      exact .present (fun other hother => Branch.not_isIf_iff.mp (hnot other hother))
        (of_decide_eq_true hb)

theorem firstIf_level (l : Level) : FirstIf l.branches l.ifBranch? l.otherBranches :=
  firstIf_iff.mpr ⟨rfl, rfl⟩

theorem FirstIf.perm {branches : List Branch} {first : Option Branch} {others : List Branch}
    (h : FirstIf branches first others) : (first.toList ++ others).Perm branches := by
  cases h with
  | absent _ => exact List.Perm.refl _
  | @present before after b _ _ =>
    show (b :: (before ++ after)).Perm (before ++ b :: after)
    exact List.perm_middle.symm

/-! ## The mapping of a level -/

/-- the keys of a resolved scope, in order -/
def scopeKeys : List String :=
  ["global", "if", "elif", "else"]

/-- The mapping `es` is what a level says, when the scope below it says `below`. -/
structure Level.Resolved (l : Level) (below es : List (String × Value)) : Prop where
  /-- these keys only, each at most once, in this order -/
  order : (Entries.keys es).Sublist scopeKeys
  /-- the merged statements before any branch, if they say anything -/
  globals : Entries.get? "global" es
    = if foldStatements l.globals = [] then none else some (.dict (foldStatements l.globals))
  /-- the block of the first `if`, and the blocks of all other branches if there are any -/
  branches : ∃ first others, FirstIf l.branches first others ∧
    Entries.get? "if" es = first.map (fun b => .dict b.block) ∧
    Entries.get? "elif" es
      = if others = [] then none else some (.list (others.map fun b => .dict b.block))
  /-- the scope below, if it says anything -/
  below : Entries.get? "else" es = if below = [] then none else some (.dict below)

/-- The mapping that a scope resolves to. -/
inductive Scope.Resolved : Scope → List (String × Value) → Prop where
  /-- nothing below -/
  | last {l : Level} {es : List (String × Value)} : l.Resolved [] es → Resolved (.last l) es
  /-- a scope below -/
  | orElse {l : Level} {other : Scope} {below es : List (String × Value)} :
      other.Resolved below → l.Resolved below es → Resolved (.orElse l other) es

/-- A sublist of distinct elements is determined by its members. -/
theorem filter_mem_sublist {α : Type} [DecidableEq α] {order l : List α} (hnodup : order.Nodup)
    (h : l.Sublist order) : order.filter (· ∈ l) = l := by
  induction h with
  | slnil => rfl
  | cons a h ih =>
    obtain ⟨ha, hnodup⟩ := List.nodup_cons.mp hnodup
    rw [List.filter_cons_of_neg (by simpa using mt h.mem ha), ih hnodup]
  | @cons_cons l order a h ih =>
    obtain ⟨ha, hnodup⟩ := List.nodup_cons.mp hnodup
    rw [List.filter_cons_of_pos (by simp)]
    have hrest : order.filter (· ∈ a :: l) = order.filter (· ∈ l) := by
      refine List.filter_congr fun b hb => ?_
      have hne : b ≠ a := fun heq => ha (heq ▸ hb)
      simp [hne]
    rw [hrest, ih hnodup]

theorem Level.Resolved.unique {l : Level} {below es es' : List (String × Value)}
    (h : l.Resolved below es) (h' : l.Resolved below es') : es = es' := by
  have hnodup : scopeKeys.Nodup := by decide
  have hget : ∀ key, Entries.get? key es = Entries.get? key es' := by
    intro key
    by_cases hkey : key ∈ scopeKeys
    · obtain ⟨first, others, hfirst, hif, helif⟩ := h.branches
      obtain ⟨first', others', hfirst', hif', helif'⟩ := h'.branches
      obtain ⟨rfl, rfl⟩ := firstIf_iff.mp hfirst
      obtain ⟨rfl, rfl⟩ := firstIf_iff.mp hfirst'
      simp only [scopeKeys, List.mem_cons, List.not_mem_nil, or_false] at hkey
      rcases hkey with rfl | rfl | rfl | rfl
      · rw [h.globals, h'.globals]
      · rw [hif, hif']
      · rw [helif, helif']
      · rw [h.below, h'.below]
    · rw [Entries.get?_eq_none_iff.mpr (mt h.order.mem hkey),
        Entries.get?_eq_none_iff.mpr (mt h'.order.mem hkey)]
  have hkeys : Entries.keys es = Entries.keys es' := by
    rw [← filter_mem_sublist hnodup h.order, ← filter_mem_sublist hnodup h'.order]
    refine List.filter_congr fun key _ => ?_
    have hmem : key ∈ Entries.keys es ↔ key ∈ Entries.keys es' := by
      rw [← not_iff_not, ← Entries.get?_eq_none_iff, ← Entries.get?_eq_none_iff, hget]
    simp [hmem]
  exact Entries.ext_get? hkeys (hnodup.sublist h.order) hget

/-! ## Documents have it -/

/-- at most one entry for each key, in the order of the keys -/
def scopeEntries (globals first others below : Option Value) : List (String × Value) :=
  globals.toList.map (("global", ·)) ++ first.toList.map (("if", ·))
    ++ others.toList.map (("elif", ·)) ++ below.toList.map (("else", ·))

section
variable (globals first others below : Option Value)

theorem keys_scopeEntries_sublist :
    (Entries.keys (scopeEntries globals first others below)).Sublist scopeKeys := by
  have hsingle : ∀ (key : String) (v : Option Value),
      (Entries.keys (v.toList.map ((key, ·)))).Sublist [key] := by
    intro key v
    cases v with
    | none => exact List.nil_sublist _
    | some v => exact List.Sublist.refl _
  simp only [scopeEntries, Entries.keys, List.map_append]
  exact (((hsingle _ globals).append (hsingle _ first)).append (hsingle _ others)).append
    (hsingle _ below)

theorem get?_scopeEntries :
    Entries.get? "global" (scopeEntries globals first others below) = globals ∧
    Entries.get? "if" (scopeEntries globals first others below) = first ∧
    Entries.get? "elif" (scopeEntries globals first others below) = others ∧
    Entries.get? "else" (scopeEntries globals first others below) = below := by
  cases globals <;> cases first <;> cases others <;> cases below <;>
    simp [scopeEntries, Entries.get?]

end

/-- the entry of a scope below, if that scope says anything -/
def elseEntry (below : List (String × Value)) : List (String × Value) :=
  if below = [] then [] else [("else", .dict below)]

theorem Level.resolve_append_elseEntry (l : Level) (below : List (String × Value)) :
    l.resolve ++ elseEntry below = scopeEntries
      (if foldStatements l.globals = [] then none else some (.dict (foldStatements l.globals)))
      (l.ifBranch?.map fun b => .dict b.block)
      (if l.otherBranches = [] then none
        else some (.list (l.otherBranches.map fun b => .dict b.block)))
      (if below = [] then none else some (.dict below)) := by
  have hentry : ∀ (p : Prop) [Decidable p] (key : String) (v : Value),
      (if p then none else some v).toList.map ((key, ·)) = if p then [] else [(key, v)] := by
    intro p _ key v
    split <;> rfl
  have hif : (l.ifBranch?.map fun b => Value.dict b.block).toList.map (("if", ·))
      = l.ifBranch?.toList.map fun b => ("if", .dict b.block) := by
    cases l.ifBranch? <;> rfl
  simp only [resolve, elseEntry, scopeEntries, hentry, hif, List.map_eq_nil_iff]

theorem Level.resolved (l : Level) (below : List (String × Value)) :
    l.Resolved below (l.resolve ++ elseEntry below) := by
  rw [l.resolve_append_elseEntry]
  obtain ⟨hglobal, hif, helif, helse⟩ := get?_scopeEntries
    (if foldStatements l.globals = [] then none else some (.dict (foldStatements l.globals)))
    (l.ifBranch?.map fun b => .dict b.block)
    (if l.otherBranches = [] then none
      else some (.list (l.otherBranches.map fun b => .dict b.block)))
    (if below = [] then none else some (.dict below))
  exact ⟨keys_scopeEntries_sublist _ _ _ _, hglobal, ⟨_, _, firstIf_level l, hif, helif⟩, helse⟩

theorem Scope.resolve_last (l : Level) : (Scope.last l).resolve = l.resolve ++ elseEntry [] :=
  (List.append_nil l.resolve).symm

theorem Scope.resolve_orElse (l : Level) (other : Scope) :
    (Scope.orElse l other).resolve = l.resolve ++ elseEntry other.resolve := rfl

theorem Scope.resolved_iff {s : Scope} {es : List (String × Value)} :
    s.Resolved es ↔ es = s.resolve := by
  induction s generalizing es with
  | last l =>
    rw [resolve_last]
    constructor
    · rintro ⟨h⟩
      exact h.unique (l.resolved [])
    · rintro rfl
      exact .last (l.resolved [])
  | orElse l other ih =>
    rw [resolve_orElse]
    constructor
    · intro h
      cases h with
      | orElse hother h =>
        rw [ih.mp hother] at h
        exact h.unique (l.resolved other.resolve)
    · rintro rfl
      exact .orElse (ih.mpr rfl) (l.resolved other.resolve)

/-! ## Level by level, from the last one up -/

/-- A block goes under `if` when it is the first of an `if`, and else on the pile of the others. -/
def placeBranch (state : List (String × Value) × List Value) (b : Branch) :
    List (String × Value) × List Value :=
  if b.kind = .ifThen ∧ Entries.get? "if" state.1 = none then
    (Entries.insert "if" (.dict b.block) state.1, state.2)
  else (state.1, state.2 ++ [.dict b.block])

/-- The mapping of a level without what is below it, in one pass over the branches. -/
def Level.walk (l : Level) : List (String × Value) :=
  let globals := foldStatements l.globals
  let placed := l.branches.foldl placeBranch
    (if globals = [] then [] else [("global", .dict globals)], [])
  if placed.2 = [] then placed.1 else Entries.insert "elif" (.list placed.2) placed.1

/-- Puts a mapping below a level, if it says anything. -/
def hang (level below : List (String × Value)) : List (String × Value) :=
  if below = [] then level else Entries.insert "else" (.dict below) level

/-- The mappings of levels, each hung below the one before it; the last is hung first. -/
def nest (levels : List (List (String × Value))) : List (String × Value) :=
  levels.foldr hang []

/-- while no branch can go under `if`, all of them pile up -/
theorem foldl_placeBranch_pile {branches : List Branch} {out : List (String × Value)}
    (h : ∀ b ∈ branches, b.kind = .elseIf ∨ (Entries.get? "if" out).isSome = true)
    (pile : List Value) :
    branches.foldl placeBranch (out, pile)
      = (out, pile ++ branches.map fun b => .dict b.block) := by
  induction branches generalizing pile with
  | nil => rw [List.map_nil, List.append_nil, List.foldl_nil]
  | cons b branches ih =>
    have hstay : ¬ (b.kind = .ifThen ∧ Entries.get? "if" out = none) := by
      rintro ⟨hkind, hnone⟩
      rcases h b List.mem_cons_self with helse | hsome
      · rw [hkind] at helse
        cases helse
      · rw [hnone] at hsome
        cases hsome
    rw [List.foldl_cons, placeBranch, if_neg hstay,
      ih fun b hb => h b (List.mem_cons_of_mem _ hb), List.map_cons, List.append_assoc]
    rfl

theorem foldl_placeBranch {branches : List Branch} {first : Option Branch} {others : List Branch}
    (hfirst : FirstIf branches first others) {out : List (String × Value)}
    (hout : "if" ∉ Entries.keys out) :
    branches.foldl placeBranch (out, [])
      = (out ++ first.toList.map (fun b => ("if", .dict b.block)),
        others.map fun b => .dict b.block) := by
  cases hfirst with
  | absent helse =>
    rw [foldl_placeBranch_pile fun b hb => .inl (helse b hb)]
    exact Prod.ext (List.append_nil out).symm (List.nil_append _)
  | @present before after b helse hif =>
    have hnone : Entries.get? "if" out = none := Entries.get?_eq_none_iff.mpr hout
    rw [List.foldl_append, foldl_placeBranch_pile fun b hb => .inl (helse b hb), List.foldl_cons,
      placeBranch, if_pos ⟨hif, hnone⟩,
      foldl_placeBranch_pile fun _ _ => .inr (by rw [Entries.get?_insert_self]; rfl),
      Entries.insert_of_not_mem hout, List.map_append]
    rfl

theorem Level.walk_eq_resolve (l : Level) : l.walk = l.resolve := by
  have hglobal : "if" ∉ Entries.keys (if foldStatements l.globals = [] then []
      else [("global", Value.dict (foldStatements l.globals))]) := by
    split <;> simp [Entries.keys]
  simp only [walk, foldl_placeBranch (firstIf_level l) hglobal]
  rw [resolve]
  by_cases hothers : (l.otherBranches.map fun b => Value.dict b.block) = []
  · simp only [hothers, if_true, List.append_nil]
  · simp only [hothers, if_false]
    rw [Entries.insert_of_not_mem]
    simp only [Entries.keys, List.map_append, List.mem_append]
    rintro (hmem | hmem)
    · split at hmem <;> simp at hmem
    · cases h : l.ifBranch? <;> simp [h] at hmem

theorem else_not_mem_keys_resolve (l : Level) : "else" ∉ Entries.keys l.resolve := by
  have h := (l.resolved []).below
  rw [elseEntry, if_pos rfl, List.append_nil] at h
  exact Entries.get?_eq_none_iff.mp h

theorem nest_walk (s : Scope) : nest (s.levels.map Level.walk) = s.resolve := by
  induction s with
  | last l => exact l.walk_eq_resolve
  | orElse l other ih =>
    show hang l.walk (nest (other.levels.map Level.walk)) = _
    rw [ih, l.walk_eq_resolve, Scope.resolve_orElse, hang, elseEntry]
    split
    · exact (List.append_nil _).symm
    · exact Entries.insert_of_not_mem (else_not_mem_keys_resolve l) _

/-! ## Scopes far below -/

/-- The scope so many `else` below. -/
def Scope.below? : Nat → Scope → Option Scope
  | 0, s => some s
  | n + 1, s => s.other?.bind (below? n)

theorem at?_else_resolve {n : Nat} {s t : Scope} (hbelow : s.below? n = some t)
    (ht : t.resolve ≠ []) :
    (Value.dict s.resolve).at? (List.replicate n "else") = some (.dict t.resolve) ∧
      s.resolve ≠ [] := by
  induction n generalizing s with
  | zero =>
    obtain rfl := Option.some.inj hbelow
    exact ⟨rfl, ht⟩
  | succ n ih =>
    cases s with
    | last l => cases hbelow
    | orElse l other =>
      obtain ⟨hat, hother⟩ := ih (s := other) hbelow
      have helse := (l.resolved other.resolve).below
      rw [if_neg hother, ← Scope.resolve_orElse] at helse
      constructor
      · rw [List.replicate_succ, at?, get?_dict, helse]
        exact hat
      · intro hnil
        rw [hnil] at helse
        cases helse

/-! ## The blocks in a document -/

mutual
/-- The blocks of branches in a document: what stands under `if`, the items of `elif`, and all of
them below `else`. -/
def Value.blocks : Value → List Value
  | .dict entries => entryBlocks entries
  | .null => []
  | .bool _ => []
  | .num _ => []
  | .str _ => []
  | .list _ => []
/-- Those in the entries of a document. -/
def Value.entryBlocks : List (String × Value) → List Value
  | [] => []
  | (key, v) :: entries =>
    (if key = "if" then [v]
      else if key = "elif" then v.items?.getD []
      else if key = "else" then v.blocks
      else [])
      ++ entryBlocks entries
end

theorem Value.entryBlocks_append (a b : List (String × Value)) :
    entryBlocks (a ++ b) = entryBlocks a ++ entryBlocks b := by
  induction a with
  | nil => rfl
  | cons e a ih =>
    obtain ⟨key, v⟩ := e
    rw [List.cons_append, entryBlocks, ih, entryBlocks, List.append_assoc]

/-- the branches of a level in the order of the document -/
def Level.placed (l : Level) : List Branch :=
  l.ifBranch?.toList ++ l.otherBranches

def Scope.placed (s : Scope) : List Branch :=
  s.levels.flatMap Level.placed

theorem entryBlocks_level (l : Level) :
    Value.entryBlocks l.resolve = l.placed.map fun b => .dict b.block := by
  have hglobal : Value.entryBlocks (if foldStatements l.globals = [] then []
      else [("global", .dict (foldStatements l.globals))]) = [] := by
    split <;> simp [entryBlocks]
  have hif : Value.entryBlocks (l.ifBranch?.toList.map fun b => ("if", .dict b.block))
      = l.ifBranch?.toList.map fun b => .dict b.block := by
    cases l.ifBranch? <;> simp [entryBlocks]
  have hothers : ∀ blocks : List Value,
      Value.entryBlocks (if blocks = [] then [] else [("elif", .list blocks)]) = blocks := by
    intro blocks
    split
    · rename_i hnil
      rw [hnil, entryBlocks]
    · simp [entryBlocks, items?]
  simp only [Level.resolve, entryBlocks_append, hglobal, hif, hothers, Level.placed,
    List.map_append, List.nil_append]

theorem entryBlocks_resolve (s : Scope) :
    Value.entryBlocks s.resolve = s.placed.map fun b => .dict b.block := by
  induction s with
  | last l =>
    rw [Scope.placed, Scope.levels, List.flatMap_singleton]
    exact entryBlocks_level l
  | orElse l other ih =>
    have helse : Value.entryBlocks (elseEntry other.resolve) = Value.entryBlocks other.resolve := by
      rw [elseEntry]
      split
      · rename_i hnil
        rw [hnil]
      · simp [entryBlocks, blocks]
    rw [Scope.resolve_orElse, entryBlocks_append, entryBlocks_level, helse, ih, ← List.map_append]
    rfl

theorem placed_perm (s : Scope) : s.placed.Perm s.allBranches := by
  unfold Scope.placed Scope.allBranches
  induction s.levels with
  | nil => exact .nil
  | cons l levels ih =>
    rw [List.flatMap_cons, List.flatMap_cons]
    exact (firstIf_level l).perm.append ih

/-! ## Documents -/

theorem blocks_document (name : String) (s : Scope) :
    (Value.dict (document name s)).blocks = s.placed.map fun b => .dict b.block := by
  rw [blocks, document, entryBlocks, entryBlocks_resolve]
  simp

/-- **A document is what its scope resolves to, level by level.**  The document of every scope is
`name` and then the mapping that the scope resolves to.  Hanging the levels below each other from
the last one up builds the same document.  However far below, a scope that says something is found
at the end of as many `else`, also when the levels in between say nothing of their own.  And the
blocks in the document are those of all branches on all levels, none left out and none twice. -/
theorem document_resolved (name : String) (s : Scope) :
    (∀ es, document name s = ("name", .str name) :: es ↔ s.Resolved es) ∧
    document name s = ("name", .str name) :: nest (s.levels.map Level.walk) ∧
    (∀ n t below, s.below? (n + 1) = some t → t.Resolved below → below ≠ [] →
      (Value.dict (document name s)).at? (List.replicate (n + 1) "else") = some (.dict below)) ∧
    (Value.dict (document name s)).blocks.Perm (s.allBranches.map fun b => .dict b.block) := by
  refine ⟨fun es => ?_, ?_, fun n t below hbelow ht hne => ?_, ?_⟩
  · rw [Scope.resolved_iff, document, List.cons.injEq]
    exact ⟨fun h => h.2.symm, fun h => ⟨rfl, h.symm⟩⟩
  · rw [nest_walk, document]
  · obtain rfl := Scope.resolved_iff.mp ht
    rw [← (at?_else_resolve hbelow hne).1]
    rfl
  · rw [blocks_document]
    exact (placed_perm s).map _

/-- A stray `elseif` before two `if`, then an `else` that says nothing, then another that does. -/
def gappedScope : Scope :=
  .orElse
    { branches := [⟨.elseIf, "elseif med eq 1 then", "med eq 1", ["pass"]⟩,
        ⟨.ifThen, "if tag eq 2 then", "tag eq 2", ["drop"]⟩,
        ⟨.ifThen, "if tag eq 3 then", "tag eq 3", []⟩] }
    (.orElse { globals := ["mystery"] } (.last { globals := ["set weight 5"] }))

theorem document_gappedScope :
    gappedScope.below? 2 = some (.last { globals := ["set weight 5"] }) ∧
    Scope.Resolved (.last { globals := ["set weight 5"] })
      [("global", .dict [("set", .dict [("weight", .str "5")])])] ∧
    (Value.dict (document "P" gappedScope)).at? ["else", "else"]
      = some (.dict [("global", .dict [("set", .dict [("weight", .str "5")])])]) := by
  have hbelow : gappedScope.below? 2 = some (.last { globals := ["set weight 5"] }) := rfl
  have hresolved : Scope.Resolved (.last { globals := ["set weight 5"] })
      [("global", .dict [("set", .dict [("weight", .str "5")])])] :=
    Scope.resolved_iff.mpr (by decide +kernel)
  obtain ⟨_, _, hfar, _⟩ := document_resolved "P" gappedScope
  exact ⟨hbelow, hresolved, hfar 1 _ _ hbelow hresolved (by simp)⟩

end RoutePolicy
