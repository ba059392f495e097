import RoutePolicy.Proofs.Accounting

/-!
# Empty blocks

Where a document has a mapping without entries.  The mapping of the statements before any branch is
left out when it is empty, and so is the mapping under an `else`; the block of a branch stands in
the document as it is.

* `Branch.IsMute`           no line of the branch says anything, and no clause is recognised;
* `block_eq_nil_iff`        this is when its block is empty;
* `at?_else_iff`            what stands so many `else` below the top of a document;
* `resolve_eq_nil_iff`      a scope with branches always says something;
* `document_emptyBlocks`    the empty blocks are those of the mute branches, and no others.
-/

namespace RoutePolicy

open Value

/-! ## Merging to nothing -/

theorem Entries.insert_ne_nil {α : Type} (key : String) (value : α) (entries : List (String × α)) :
    insert key value entries ≠ [] := by
  intro hnil
  have hget := get?_insert_self key value entries
  rw [hnil] at hget
  cases hget

theorem Value.merge_ne_nil {acc : List (String × Value)} (hacc : acc ≠ [])
    (entries : List (String × Value)) : merge acc entries ≠ [] := by
  induction entries generalizing acc with
  | nil =>
    rw [merge_nil]
    exact hacc
  | cons e rest ih =>
    obtain ⟨key, v⟩ := e
    rw [merge]
    exact ih (Entries.insert_ne_nil _ _ _)

theorem Value.merge_eq_nil_iff {acc entries : List (String × Value)} :
    merge acc entries = [] ↔ acc = [] ∧ entries = [] := by
  constructor
  · intro h
    have hacc : acc = [] := not_not.mp fun hne => merge_ne_nil hne entries h
    refine ⟨hacc, ?_⟩
    cases entries with
    | nil => rfl
    | cons e rest =>
      obtain ⟨key, v⟩ := e
      rw [merge] at h
      exact absurd h (merge_ne_nil (Entries.insert_ne_nil _ _ _) rest)
  · rintro ⟨rfl, rfl⟩
    exact merge_nil []

/-! ## Branches that say nothing -/

/-- The line is a statement that gives its block an entry.  Recognised lines that do not are those
whose only operand is left out, such as `set attribute-set`. -/
def Contributes (line : String) : Prop :=
  ∃ m, recognize LineClass.isStatement line = some m ∧ m.fragment ≠ []

example : (recognize LineClass.isStatement "set attribute-set").map (·.fragment) = some [] := by
  decide +kernel

/-- The branch says nothing. -/
structure Branch.IsMute (b : Branch) : Prop where
  clauses : ∀ clause ∈ b.clauses, recognize (· = .condition) clause = none
  statements : ∀ line ∈ b.statements, ¬ Contributes line

theorem foldStatements_singleton_eq_nil_iff {line : String} :
    foldStatements [line] = [] ↔ ¬ Contributes line := by
  rw [foldStatements, List.foldl_cons, List.foldl_nil]
  cases hm : recognize LineClass.isStatement line with
  | none => simp [Contributes, hm]
  | some m => simp [Contributes, hm, merge_eq_nil_iff]

theorem foldStatements_eq_nil_iff {lines : List String} :
    foldStatements lines = [] ↔ ∀ line ∈ lines, ¬ Contributes line := by
  induction lines with
  | nil => exact iff_of_true foldStatements_nil nofun
  | cons line lines ih =>
    have happend := foldStatements_append [line] lines
    rw [List.singleton_append] at happend
    rw [happend, merge_eq_nil_iff, foldStatements_singleton_eq_nil_iff, ih, List.forall_mem_cons]

theorem conditions_eq_nil_iff {b : Branch} :
    b.conditions = [] ↔ ∀ clause ∈ b.clauses, recognize (· = .condition) clause = none := by
  rw [Branch.conditions, List.filterMap_eq_nil_iff]
  refine forall₂_congr fun clause _ => ?_
  rw [← Option.not_isSome_iff_eq_none, isSome_clauseValue?, Option.not_isSome_iff_eq_none]

/-- An entry that is left out in some case. -/
theorem entry_eq_nil_iff {p : Prop} [Decidable p] {e : String × Value} :
    (if p then [] else [e]) = [] ↔ p := by
  split <;> simp [*]

theorem block_eq_nil_iff {b : Branch} : b.block = [] ↔ b.IsMute := by
  rw [Branch.block, merge_eq_nil_iff, entry_eq_nil_iff, conditions_eq_nil_iff,
    foldStatements_eq_nil_iff]
  constructor
  · rintro ⟨hclauses, hstatements⟩
    exact ⟨hclauses, hstatements⟩
  · intro h
    exact ⟨h.clauses, h.statements⟩

/-! ## Scopes below -/

/-- What stands at the end of so many `else` is a scope that says something, or the top. -/
theorem at?_else_iff {n : Nat} {s : Scope} {v : Value} :
    (Value.dict s.resolve).at? (List.replicate n "else") = some v ↔
      ∃ t, s.below? n = some t ∧ v = .dict t.resolve ∧ (n = 0 ∨ t.resolve ≠ []) := by
  constructor
  · intro h
    induction n generalizing s with
    | zero => exact ⟨s, rfl, (Option.some.inj h).symm, .inl rfl⟩
    | succ n ih =>
      rw [List.replicate_succ, at?, get?_dict] at h
      cases s with
      | last l =>
        rw [Scope.resolve_last, (l.resolved []).below] at h
        cases h
      | orElse l other =>
        rw [Scope.resolve_orElse, (l.resolved other.resolve).below] at h
        split at h
        · cases h
        · rename_i hother
          obtain ⟨t, ht, hv, hsays⟩ := ih h
          refine ⟨t, ht, hv, .inr ?_⟩
          rcases hsays with rfl | hsays
          · obtain rfl := Option.some.inj ht
            exact hother
          · exact hsays
  · rintro ⟨t, ht, rfl, rfl | hsays⟩
    · obtain rfl := Option.some.inj ht
      rfl
    · exact (at?_else_resolve ht hsays).1

theorem Scope.level_resolved (s : Scope) : ∃ below, s.level.Resolved below s.resolve := by
  cases s with
  | last l =>
    refine ⟨[], ?_⟩
    rw [resolve_last]
    exact l.resolved []
  | orElse l other =>
    refine ⟨other.resolve, ?_⟩
    rw [resolve_orElse]
    exact l.resolved other.resolve

theorem Level.resolve_eq_nil_iff {l : Level} :
    l.resolve = [] ↔ l.branches = [] ∧ ∀ line ∈ l.globals, ¬ Contributes line := by
  have hperm := (firstIf_level l).perm
  have hbranches : l.branches = [] ↔ l.ifBranch? = none ∧ l.otherBranches = [] := by
    rw [← List.perm_nil, ← hperm.congr_left, List.perm_nil, List.append_eq_nil_iff,
      Option.toList_eq_nil_iff]
  rw [hbranches, ← foldStatements_eq_nil_iff]
  simp only [Level.resolve, List.append_eq_nil_iff, List.map_eq_nil_iff, Option.toList_eq_nil_iff,
    entry_eq_nil_iff]
  constructor
  · rintro ⟨⟨hglobal, hif⟩, helif⟩
    exact ⟨⟨hif, helif⟩, hglobal⟩
  · rintro ⟨⟨hif, helif⟩, hglobal⟩
    exact ⟨⟨hglobal, hif⟩, helif⟩

theorem elseEntry_eq_nil_iff {below : List (String × Value)} :
    elseEntry below = [] ↔ below = [] :=
  entry_eq_nil_iff

theorem Scope.resolve_eq_nil_iff {s : Scope} :
    s.resolve = [] ↔
      s.allBranches = [] ∧ ∀ l ∈ s.levels, ∀ line ∈ l.globals, ¬ Contributes line := by
  induction s with
  | last l =>
    show l.resolve = [] ↔ [l].flatMap Level.branches = [] ∧ ∀ l' ∈ [l], _
    rw [Level.resolve_eq_nil_iff, List.flatMap_singleton, List.forall_mem_singleton]
  | orElse l other ih =>
    show _ ↔ (l :: other.levels).flatMap Level.branches = [] ∧ ∀ l' ∈ l :: other.levels, _
    rw [resolve_orElse, List.append_eq_nil_iff, Level.resolve_eq_nil_iff, elseEntry_eq_nil_iff, ih,
      List.flatMap_cons, List.append_eq_nil_iff, List.forall_mem_cons]
    exact and_and_and_comm

/-! ## Empty blocks in a document -/

/-- An empty mapping, or a list with one in it. -/
def Value.HoldsEmpty (v : Value) : Prop :=
  v = .dict [] ∨ ∃ items, v = .list items ∧ .dict [] ∈ items

/-- An empty mapping stands under this key, so many `else` below the top; the blocks under `elif`
stand in a list. -/
def Value.EmptyAt (document : Value) (depth : Nat) (key : String) : Prop :=
  ∃ scope block, document.at? (List.replicate depth "else") = some scope ∧
    scope.get? key = some block ∧ block.HoldsEmpty

theorem holdsEmpty_dict_iff {entries : List (String × Value)} :
    (Value.dict entries).HoldsEmpty ↔ entries = [] := by
  simp [HoldsEmpty]

theorem holdsEmpty_blocks_iff {branches : List Branch} :
    (Value.list (branches.map fun b => .dict b.block)).HoldsEmpty ↔ ∃ b ∈ branches, b.IsMute := by
  simp [HoldsEmpty, block_eq_nil_iff]

/-- A mapping that is left out when it is empty is not there empty. -/
theorem not_holdsEmpty_of_kept {entries : List (String × Value)} {v : Value}
    (h : (if entries = [] then none else some (Value.dict entries)) = some v) : ¬ v.HoldsEmpty := by
  split at h
  · cases h
  · rename_i hne
    obtain rfl := Option.some.inj h
    exact mt holdsEmpty_dict_iff.mp hne

section
variable {l : Level} {below es : List (String × Value)} {v : Value}

theorem Level.Resolved.not_holdsEmpty_global (h : l.Resolved below es)
    (hv : Entries.get? "global" es = some v) : ¬ v.HoldsEmpty :=
  not_holdsEmpty_of_kept (h.globals.symm.trans hv)

theorem Level.Resolved.not_holdsEmpty_else (h : l.Resolved below es)
    (hv : Entries.get? "else" es = some v) : ¬ v.HoldsEmpty :=
  not_holdsEmpty_of_kept (h.below.symm.trans hv)

/-- The empty blocks of a level are those of its mute branches. -/
theorem Level.Resolved.holdsEmpty_iff (h : l.Resolved below es) :
    ((∃ v, Entries.get? "if" es = some v ∧ v.HoldsEmpty) ∨
        ∃ v, Entries.get? "elif" es = some v ∧ v.HoldsEmpty) ↔ ∃ b ∈ l.branches, b.IsMute := by
  obtain ⟨first, others, hfirst, hif, helif⟩ := h.branches
  have hone : (∃ v, Entries.get? "if" es = some v ∧ v.HoldsEmpty) ↔
      ∃ b ∈ first.toList, b.IsMute := by
    rw [hif]
    cases first with
    | none => simp
    | some b => simp [holdsEmpty_dict_iff, block_eq_nil_iff]
  have hrest : (∃ v, Entries.get? "elif" es = some v ∧ v.HoldsEmpty) ↔ ∃ b ∈ others, b.IsMute := by
    rw [helif]
    split
    · rename_i hnil
      simp [hnil]
    · simp only [Option.some.injEq, exists_eq_left', holdsEmpty_blocks_iff]
  rw [hone, hrest]
  simp only [← hfirst.perm.mem_iff, List.mem_append, or_and_right, exists_or]

end

theorem emptyAt_document_iff {name : String} {s : Scope} {depth : Nat} {key : String}
    (hkey : key ≠ "name") :
    (Value.dict (document name s)).EmptyAt depth key ↔
      ∃ t v, s.below? depth = some t ∧ Entries.get? key t.resolve = some v ∧ v.HoldsEmpty := by
  -- the name stands in front of the top scope, and under no other key
  have hdocument : (Value.dict (document name s)).EmptyAt depth key ↔
      (Value.dict s.resolve).EmptyAt depth key := by
    cases depth with
    | zero =>
      have hget : (Value.dict (document name s)).get? key = (Value.dict s.resolve).get? key :=
        if_neg (Ne.symm hkey)
      simp only [EmptyAt, List.replicate_zero, at?, Option.some.injEq, exists_and_left,
        exists_eq_left', hget]
    | succ depth => rfl
  rw [hdocument]
  constructor
  · rintro ⟨scope, v, hscope, hv, hempty⟩
    obtain ⟨t, ht, rfl, _⟩ := at?_else_iff.mp hscope
    exact ⟨t, v, ht, hv, hempty⟩
  · rintro ⟨t, v, ht, hv, hempty⟩
    refine ⟨_, v, at?_else_iff.mpr ⟨t, ht, rfl, .inr fun hnil => ?_⟩, hv, hempty⟩
    rw [hnil] at hv
    cases hv

/-- **The empty blocks of a document are those of mute branches.**  At every depth of the `else`
chain, an empty mapping never stands under `global` or `else`, and one stands under `if` or `elif`
just if a branch of that level is mute.  So the document is `name` alone just if there is no branch
at all, mute or not, and no statement outside of branches contributes anything. -/
theorem document_emptyBlocks (name : String) (s : Scope) :
    (∀ depth, ¬ (Value.dict (document name s)).EmptyAt depth "global" ∧
      ¬ (Value.dict (document name s)).EmptyAt depth "else") ∧
    (∀ depth, ((Value.dict (document name s)).EmptyAt depth "if" ∨
        (Value.dict (document name s)).EmptyAt depth "elif") ↔
      ∃ t, s.below? depth = some t ∧ ∃ b ∈ t.level.branches, b.IsMute) ∧
    (document name s = [("name", .str name)] ↔
      s.allBranches = [] ∧ ∀ l ∈ s.levels, ∀ line ∈ l.globals, ¬ Contributes line) := by
  refine ⟨fun depth => ⟨?_, ?_⟩, fun depth => ?_, ?_⟩
  · rw [emptyAt_document_iff (by decide)]
    rintro ⟨t, v, _, hv, hempty⟩
    obtain ⟨below, hresolved⟩ := t.level_resolved
    exact hresolved.not_holdsEmpty_global hv hempty
  · rw [emptyAt_document_iff (by decide)]
    rintro ⟨t, v, _, hv, hempty⟩
    obtain ⟨below, hresolved⟩ := t.level_resolved
    exact hresolved.not_holdsEmpty_else hv hempty
  · rw [emptyAt_document_iff (by decide), emptyAt_document_iff (by decide), ← exists_or]
    refine exists_congr fun t => ?_
    obtain ⟨below, hresolved⟩ := t.level_resolved
    rw [← hresolved.holdsEmpty_iff, exists_and_left, exists_and_left, ← and_or_left]
  · rw [← Scope.resolve_eq_nil_iff, document, List.cons.injEq]
    exact and_iff_right rfl

/-- One branch, with a negated condition and a line that no rule knows. -/
def muteScope : Scope :=
  .last { branches := [⟨.ifThen, "if not med eq 1 then", "not med eq 1", ["mystery"]⟩] }

/-- Nothing is recognised in the body of the policy, and its document is more than the name. -/
theorem emptyBlock_kept :
    segment true (bodyLines "P" "if not med eq 1 then\n  mystery\nendif") = .ok muteScope ∧
    (∀ e ∈ muteScope.events, e.rule? = none) ∧
    document "P" muteScope = [("name", .str "P"), ("if", .dict [])] ∧
    (Value.dict (document "P" muteScope)).EmptyAt 0 "if" := by
  have hdocument : document "P" muteScope = [("name", .str "P"), ("if", .dict [])] := by
    decide +kernel
  refine ⟨by decide +kernel, by decide +kernel, hdocument, ?_⟩
  rw [hdocument]
  exact ⟨_, .dict [], rfl, rfl, .inl rfl⟩

end RoutePolicy
