import Mathlib.Data.List.Nodup
import Mathlib.Data.List.Pairwise
import RoutePolicy.Proofs.ClauseLayout

/-!
# The order of the rules

Rules are tried in catalog order, but the order decides nothing except between `elseif` and `else`:
on every line at most one other rule matches.

* `Pattern.leads`         the words that a line of a pattern starts with, in all their spellings;
* `catalog_discerned`     in one class, the words of a rule never start those of another;
* `overlap_of_both`       so two rules that match one line are those for `elseif` and `else`;
* `ordered_of_both`       and where `elseif` stands before `else`, the rules that match a line can
                          stand in one order only.
-/

namespace RoutePolicy

/-! ## The first words of a line -/

namespace Pattern

/-- The words that a line of this pattern starts with; an `opening` may end within a word. -/
def leads : Pattern → List (List String)
  | .phrase head _ => spelledHeads head
  | .opening _ => []
  | p => p.keywords.map fun t => [t]

end Pattern

/-- In one class, the words of neither rule start the words of the other. -/
def Rule.Discerned (a b : Rule) : Prop :=
  a.lineClass = b.lineClass →
    ∀ ts ∈ a.pattern.leads, ∀ us ∈ b.pattern.leads, ¬ ts <+: us ∧ ¬ us <+: ts

instance (a b : Rule) : Decidable (a.Discerned b) :=
  inferInstanceAs (Decidable (a.lineClass = b.lineClass → _))

instance : Std.Symm Rule.Discerned where
  symm _ _ h hclass us hus ts hts := (h hclass.symm ts hts us hus).symm

/-! ## The table -/

theorem catalog_discerned : catalog.Pairwise Rule.Discerned := by
  decide +kernel

theorem catalog_nodup : catalog.Nodup := by
  decide +kernel

theorem catalog_heads : ∀ rule ∈ catalog, Pattern.properHead rule.head = true := by
  decide +kernel

theorem catalog_opening : ∀ rule ∈ catalog, ∀ t ∈ rule.pattern.keywords,
    rule.pattern = .opening t → rule = Catalog.elseBranch := by
  decide +kernel

theorem lead_of_match {rule : Rule} (hrule : rule ∈ catalog) (helse : rule ≠ Catalog.elseBranch)
    {cs : List Char} (h : (rule.match? cs).isSome = true) :
    ∃ ts ∈ rule.pattern.leads, ts.map String.toList <+: Text.words cs := by
  obtain ⟨caps, hcaps⟩ := Option.isSome_iff_exists.mp (match?_isSome_iff.mp h)
  obtain ⟨hne, hkeywords⟩ := keywords_ofLine rule hrule
  cases hpattern : rule.pattern with
  | phrase head operands =>
    have hproper := catalog_heads rule hrule
    rw [Rule.head, hpattern] at hproper
    rw [hpattern] at hcaps
    obtain ⟨after, hhead, _⟩ := Option.bind_eq_some_iff.mp hcaps
    obtain ⟨ts, hts, hwords, _⟩ := Pattern.exists_spelled hproper hhead
    rw [Text.words, if_pos (by decide)] at hwords
    exact ⟨ts, hts, _, hwords.symm⟩
  | opening keyword =>
    have hkeyword : keyword ∈ rule.pattern.keywords := by
      rw [hpattern]
      exact List.mem_singleton_self _
    exact absurd (catalog_opening rule hrule keyword hkeyword hpattern) helse
  | _ =>
    obtain ⟨t, ht, after, rfl, hopening | hsep⟩ := Pattern.starts_of_captures hne hcaps
    · rw [hpattern] at hopening
      cases hopening
    · obtain ⟨hnil, hsolid, _⟩ := hkeywords t ht
      rw [hpattern] at ht
      refine ⟨[t], List.mem_map.mpr ⟨t, ht, rfl⟩, Text.words after, ?_⟩
      rw [Text.words_word_append ⟨hnil, Text.solid_of_all hsolid⟩ hsep]
      rfl

theorem ofLine_of_match {rule : Rule} (hrule : rule ∈ catalog) {cs : List Char}
    (h : (rule.match? cs).isSome = true) : LineClass.ofLine cs = rule.lineClass := by
  obtain ⟨caps, hcaps⟩ := Option.isSome_iff_exists.mp (match?_isSome_iff.mp h)
  exact ofLine_of_captures hrule hcaps

/-! ## Rules that match the same line -/

theorem elseBranch_match?_isSome_iff {cs : List Char} :
    (Catalog.elseBranch.match? cs).isSome = true ↔ "else".toList <+: cs := by
  rw [match?_isSome_iff, ← Pattern.afterText_isSome_iff]
  show ((Pattern.afterText "else".toList cs).map _).isSome = true ↔ _
  rw [Option.isSome_map]

theorem starts_of_conditional {leaf : String} {cs : List Char}
    (h : ((Catalog.conditional leaf).match? cs).isSome = true) : leaf.toList <+: cs := by
  obtain ⟨caps, hcaps⟩ := Option.isSome_iff_exists.mp (match?_isSome_iff.mp h)
  obtain ⟨after, hafter, _⟩ := Option.bind_eq_some_iff.mp hcaps
  exact ⟨after, (Pattern.afterText_eq_some_iff.mp hafter).symm⟩

/-- A line that starts with `elseif` starts with `else`. -/
theorem elseBranch_of_elseIfBranch {cs : List Char}
    (h : (Catalog.elseIfBranch.match? cs).isSome = true) :
    (Catalog.elseBranch.match? cs).isSome = true := by
  have hpre : "else".toList <+: "elseif".toList := by decide
  exact elseBranch_match?_isSome_iff.mpr (hpre.trans (starts_of_conditional h))

/-- Besides `else` itself, only the rule for `elseif` matches a line that starts with `else`. -/
theorem eq_elseIfBranch {rule : Rule} (hrule : rule ∈ catalog) (hne : rule ≠ Catalog.elseBranch)
    {cs : List Char} (h : (rule.match? cs).isSome = true)
    (helse : (Catalog.elseBranch.match? cs).isSome = true) : rule = Catalog.elseIfBranch := by
  have hmem : Catalog.elseBranch ∈ catalog := by decide +kernel
  have hclass : rule.lineClass = .branch := by
    rw [← ofLine_of_match hrule h, ofLine_of_match hmem helse]
    rfl
  have hbranch : rule ∈ Catalog.ofClass .branch := by
    rw [ofClass_eq_filter, List.mem_filter]
    exact ⟨hrule, decide_eq_true hclass⟩
  rcases List.mem_cons.mp hbranch with rfl | hbranch
  · -- `if` and `else` differ in their first letter
    obtain ⟨after, hif⟩ := starts_of_conditional h
    obtain ⟨after', helse⟩ := elseBranch_match?_isSome_iff.mp helse
    rw [← hif] at helse
    exact absurd (congrArg List.head? helse) (by simp)
  · rcases List.mem_cons.mp hbranch with rfl | hbranch
    · rfl
    · exact absurd (List.mem_singleton.mp hbranch) hne

/-- Two rules that match the same line are those for `elseif` and `else`. -/
theorem overlap_of_both {a b : Rule} (ha : a ∈ catalog) (hb : b ∈ catalog) (hne : a ≠ b)
    {cs : List Char} (h : (a.match? cs).isSome = true) (h' : (b.match? cs).isSome = true) :
    (a = Catalog.elseIfBranch ∧ b = Catalog.elseBranch) ∨
      (a = Catalog.elseBranch ∧ b = Catalog.elseIfBranch) := by
  by_cases helse : a = Catalog.elseBranch
  · subst helse
    exact .inr ⟨rfl, eq_elseIfBranch hb (Ne.symm hne) h' h⟩
  by_cases helse' : b = Catalog.elseBranch
  · subst helse'
    exact .inl ⟨eq_elseIfBranch ha hne h h', rfl⟩
  -- both start with words of their own
  obtain ⟨ts, hts, hpre⟩ := lead_of_match ha helse h
  obtain ⟨us, hus, hpre'⟩ := lead_of_match hb helse' h'
  have hclass : a.lineClass = b.lineClass := by
    rw [← ofLine_of_match ha h, ofLine_of_match hb h']
  have hdiscerned := catalog_discerned.forall ha hb hne hclass ts hts us hus
  rcases Pattern.comparable_of_words hpre hpre' with hle | hle
  · exact absurd hle hdiscerned.1
  · exact absurd hle hdiscerned.2

/-! ## Other orders -/

/-- What `recognize` finds when the rules are tried in another order. -/
def recognizeIn (rules : List Rule) (allowed : LineClass → Bool) (line : String) : Option Match :=
  let cs := Text.trim line.toList
  let lineClass := LineClass.ofLine cs
  if allowed lineClass then
    (rules.filter fun rule => rule.lineClass = lineClass).findSome? fun rule => rule.match? cs
  else none

theorem recognizeIn_catalog (allowed : LineClass → Bool) (line : String) :
    recognizeIn catalog allowed line = recognize allowed line := by
  simp only [recognizeIn, recognize, ofClass_eq_filter]

section
variable {rules : List Rule} (hperm : rules.Perm catalog)
  (horder : rules.idxOf Catalog.elseIfBranch < rules.idxOf Catalog.elseBranch)
include hperm horder

/-- Of the rules that match a line, the only one with another behind it is that for `elseif`. -/
theorem ordered_of_both (cs : List Char) : rules.Pairwise fun a b =>
    (a.match? cs).isSome = true → (b.match? cs).isSome = true →
      a = Catalog.elseIfBranch ∧ b = Catalog.elseBranch := by
  have hnodup : rules.Nodup := hperm.nodup_iff.mpr catalog_nodup
  rw [List.pairwise_iff_getElem]
  intro i j hi hj hij h h'
  have hne : rules[i] ≠ rules[j] := by
    intro heq
    have := (hnodup.getElem_inj_iff).mp heq
    omega
  rcases overlap_of_both (hperm.mem_iff.mp (List.getElem_mem hi))
    (hperm.mem_iff.mp (List.getElem_mem hj)) hne h h' with hboth | ⟨helse, helseIf⟩
  · exact hboth
  · rw [← helse, ← helseIf, hnodup.idxOf_getElem, hnodup.idxOf_getElem] at horder
    omega

/-- So the rules that match a line stand as they do in the catalog. -/
theorem filter_match?_eq (cs : List Char) :
    rules.filter (fun rule => (rule.match? cs).isSome)
      = catalog.filter fun rule => (rule.match? cs).isSome := by
  have hcatalog : catalog.idxOf Catalog.elseIfBranch < catalog.idxOf Catalog.elseBranch := by
    decide +kernel
  refine List.Perm.eq_of_pairwise ?_
    (List.pairwise_filter.mpr (ordered_of_both hperm horder cs))
    (List.pairwise_filter.mpr (ordered_of_both (.refl catalog) hcatalog cs))
    (hperm.filter fun rule => (rule.match? cs).isSome)
  rintro a b _ _ ⟨rfl, _⟩ ⟨rfl, _⟩
  rfl

theorem recognizeIn_eq (allowed : LineClass → Bool) (line : String) :
    recognizeIn rules allowed line = recognize allowed line := by
  rw [← recognizeIn_catalog]
  unfold recognizeIn
  generalize Text.trim line.toList = cs
  have hfirst : ∀ order : List Rule,
      (order.filter fun rule => rule.lineClass = LineClass.ofLine cs).findSome? (·.match? cs)
        = ((order.filter fun rule => (rule.match? cs).isSome).filter
            fun rule => rule.lineClass = LineClass.ofLine cs).findSome? (·.match? cs) := by
    intro order
    rw [List.filter_filter]
    refine findSome?_filter_congr order fun rule _ h => ?_
    rw [h, Bool.and_true]
  show (if _ then _ else _) = if _ then _ else _
  rw [hfirst rules, hfirst catalog, filter_match?_eq hperm horder]

end

/-- **The order of the catalog decides between `elseif` and `else` only.**  On every line at most one
rule of the catalog matches, except that `else` matches all lines of `elseif`; and in every order of
the rules that has `elseif` before `else`, the same rule is found for every line, with the same
fields. -/
theorem catalog_order :
    (∀ cs : List Char, catalog.Pairwise fun a b =>
      (a.match? cs).isSome = true → (b.match? cs).isSome = true →
        a = Catalog.elseIfBranch ∧ b = Catalog.elseBranch) ∧
    (∀ cs : List Char, (Catalog.elseIfBranch.match? cs).isSome = true →
      (Catalog.elseBranch.match? cs).isSome = true) ∧
    ∀ rules : List Rule, rules.Perm catalog →
      rules.idxOf Catalog.elseIfBranch < rules.idxOf Catalog.elseBranch →
      ∀ (allowed : LineClass → Bool) (line : String),
        recognizeIn rules allowed line = recognize allowed line := by
  refine ⟨fun cs => ordered_of_both (.refl catalog) (by decide +kernel) cs,
    fun cs => elseBranch_of_elseIfBranch, ?_⟩
  intro rules hperm horder allowed line
  exact recognizeIn_eq hperm horder allowed line

/-- The clauses, the actions and the settings, each from the last to the first. -/
def backwards : List Rule :=
  Catalog.header :: Catalog.branches ++ Catalog.conditions.reverse ++ Catalog.actions.reverse
    ++ Catalog.settings.reverse

theorem backwards_perm : backwards.Perm catalog :=
  (((List.Perm.refl _).append (List.reverse_perm _)).append (List.reverse_perm _)).append
    (List.reverse_perm _)

theorem catalog_order_backwards :
    (Catalog.elseBranch.match? "elseif med eq 1 then".toList).isSome = true ∧
    recognizeIn backwards LineClass.any "set label-index 5"
      = recognize LineClass.any "set label-index 5" ∧
    (recognize LineClass.any "set label-index 5").map (fun m => m.rule.name)
      = some "set.label_index" := by
  obtain ⟨_, helse, hsame⟩ := catalog_order
  have horder : backwards.idxOf Catalog.elseIfBranch < backwards.idxOf Catalog.elseBranch := by
    decide +kernel
  exact ⟨helse _ (by decide +kernel), hsame backwards backwards_perm horder LineClass.any _,
    by decide +kernel⟩

end RoutePolicy
