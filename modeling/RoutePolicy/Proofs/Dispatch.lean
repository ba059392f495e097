import RoutePolicy.Proofs.Keyword
import RoutePolicy.Recognition

/-!
# Dispatch by class

`recognize` looks at the first word of a line and then tries the rules of one class only.  Here it
is shown to find what a scan of the whole catalog finds: the first rule, of any allowed class, that
matches the trimmed line.

The catalog enters through three facts about its table, each found by evaluation
(`ofClass_eq_filter`, `keywords_ofLine`, `opening_eq_else`); the rest holds for every line.
-/

namespace RoutePolicy

/-! ## The class of a keyword -/

/-- Solid characters in front of a line stand in front of its first word. -/
theorem prefix_of_solid {ks w after : List Char} (hks : ∀ c ∈ ks, Text.isBlank c = false)
    (ha : Text.Separated after) (h : ks <+: w ++ after) : ks <+: w := by
  rcases List.prefix_or_prefix_of_prefix h (List.prefix_append w after) with h' | ⟨r, rfl⟩
  · exact h'
  · have hr : r <+: after := (List.prefix_append_right_inj w).mp h
    cases r with
    | nil => exact (List.append_nil w).symm ▸ List.prefix_refl w
    | cons c r =>
      obtain ⟨rest, rfl⟩ := hr
      have hblank : Text.isBlank c = true := ha
      have hsolid := hks c (by simp)
      rw [hsolid] at hblank
      exact absurd hblank (by simp)

namespace LineClass

/-- A whole word in front of a line gives the line its class. -/
theorem ofLine_append {w after : List Char} (hw : ∀ c ∈ w, Text.isBlank c = false) (hne : w ≠ [])
    (ha : Text.Separated after) : ofLine (w ++ after) = ofLine w := by
  have hword : Text.firstWord (w ++ after) = Text.firstWord w := by
    have h := Text.firstWord_append hw hne Text.separated_nil
    rw [List.append_nil] at h
    rw [Text.firstWord_append hw hne ha, h]
  have helse : (Pattern.afterText "else".toList (w ++ after)).isSome
      = (Pattern.afterText "else".toList w).isSome := by
    rw [Bool.eq_iff_iff, Pattern.afterText_isSome_iff, Pattern.afterText_isSome_iff]
    constructor
    · exact prefix_of_solid (Text.solid_of_all (by decide +kernel)) ha
    · exact fun h => h.trans (List.prefix_append w after)
  simp only [ofLine, hword, helse]

/-- A line that starts with `else` is a branch line, whatever follows these letters. -/
theorem ofLine_else (after : List Char) : ofLine ("else".toList ++ after) = .branch := by
  have hsome : (Pattern.afterText "else".toList ("else".toList ++ after)).isSome = true := by
    rw [Pattern.afterText_append]; rfl
  have hword : String.ofList (Text.firstWord ("else".toList ++ after)) ≠ "route-policy" := by
    intro h
    have hlist := congrArg String.toList h
    rw [String.toList_ofList, Text.firstWord_eq_takeWhile (by rfl)] at hlist
    have hhead : some 'e' = some 'r' := congrArg List.head? hlist
    exact absurd hhead (by decide)
  rw [ofLine, if_neg hword, if_pos (Or.inr (Or.inr hsome))]

end LineClass

/-! ## The table -/

theorem ofClass_eq_filter (k : LineClass) :
    Catalog.ofClass k = catalog.filter fun rule => rule.lineClass = k := by
  cases k <;> decide +kernel

theorem keywords_ofLine : ∀ rule ∈ catalog, rule.pattern.keywords ≠ [] ∧
    ∀ t ∈ rule.pattern.keywords, t.toList ≠ [] ∧ t.toList.all Form.isSolid = true ∧
      LineClass.ofLine t.toList = rule.lineClass := by
  decide +kernel

theorem opening_eq_else : ∀ rule ∈ catalog, ∀ t ∈ rule.pattern.keywords,
    rule.pattern = .opening t → t = "else" := by
  decide +kernel

/-- Every rule matches lines of its own class only. -/
theorem ofLine_of_captures {rule : Rule} (hrule : rule ∈ catalog) {cs : List Char}
    {caps : Captures} (h : rule.pattern.captures cs = some caps) :
    LineClass.ofLine cs = rule.lineClass := by
  obtain ⟨hne, hkeywords⟩ := keywords_ofLine rule hrule
  obtain ⟨t, ht, after, rfl, hcase⟩ := Pattern.starts_of_captures hne h
  obtain ⟨hnil, hsolid, hclass⟩ := hkeywords t ht
  rcases hcase with hopening | hsep
  · have helse := opening_eq_else rule hrule t ht hopening
    subst helse
    rw [LineClass.ofLine_else, ← hclass]
    decide +kernel
  · rw [LineClass.ofLine_append (Text.solid_of_all hsolid) hnil hsep, hclass]

/-- With one class allowed, the line's own class need not be looked at. -/
theorem recognize_class (k : LineClass) (line : String) :
    recognize (· = k) line
      = (Catalog.ofClass k).findSome? fun rule => rule.match? (Text.trim line.toList) := by
  by_cases hclass : LineClass.ofLine (Text.trim line.toList) = k
  · subst hclass
    simp only [recognize, decide_true, if_true]
  · simp only [recognize, hclass, decide_false, Bool.false_eq_true, if_false]
    symm
    rw [List.findSome?_eq_none_iff]
    intro rule hrule
    rw [ofClass_eq_filter, List.mem_filter, decide_eq_true_iff] at hrule
    -- a line that the rule matches would be of its class
    cases hcaps : rule.pattern.captures (Text.trim line.toList) with
    | none => rw [Rule.match?, hcaps, Option.map_none]
    | some caps => exact absurd ((ofLine_of_captures hrule.1 hcaps).trans hrule.2) hclass

/-- A recognised line is one that a rule of an allowed class matches. -/
theorem exists_of_recognize {allowed : LineClass → Bool} {line : String} {m : Match}
    (h : recognize allowed line = some m) :
    ∃ rule ∈ catalog, allowed rule.lineClass = true ∧
      rule.match? (Text.trim line.toList) = some m := by
  simp only [recognize] at h
  split at h
  · rename_i hallowed
    obtain ⟨rule, hmem, hmatch⟩ := List.exists_of_findSome?_eq_some h
    rw [ofClass_eq_filter] at hmem
    obtain ⟨hrule, hclass⟩ := List.mem_filter.mp hmem
    have hclass : rule.lineClass = LineClass.ofLine (Text.trim line.toList) := by simpa using hclass
    exact ⟨rule, hrule, by rw [hclass]; exact hallowed, hmatch⟩
  · simp at h

/-! ## The scan -/

/-- The first rule of an allowed class that matches a trimmed line, all rules tried in order. -/
def firstInCatalog (allowed : LineClass → Bool) (cs : List Char) : Option Match :=
  (catalog.filter fun rule => allowed rule.lineClass).findSome? fun rule => rule.match? cs

/-- Two selections find the same first result when they agree on the elements that give one. -/
theorem findSome?_filter_congr {α β : Type} {f : α → Option β} {p q : α → Bool} (l : List α)
    (h : ∀ a ∈ l, (f a).isSome = true → p a = q a) :
    (l.filter p).findSome? f = (l.filter q).findSome? f := by
  induction l with
  | nil => rfl
  | cons a l ih =>
    have ih' := ih fun b hb => h b (List.mem_cons_of_mem a hb)
    cases hf : f a with
    | none =>
      -- an element without a result can be selected or not
      rw [List.filter_cons, List.filter_cons]
      split <;> split <;> simp only [List.findSome?_cons, hf, ih']
    | some b =>
      have hpq := h a List.mem_cons_self (by rw [hf]; rfl)
      rw [List.filter_cons, List.filter_cons, hpq]
      split
      · simp only [List.findSome?_cons, hf]
      · exact ih'

theorem match?_isSome_iff {rule : Rule} {cs : List Char} :
    (rule.match? cs).isSome = true ↔ (rule.pattern.captures cs).isSome = true := by
  rw [Rule.match?, Option.isSome_map]

/-- **Dispatch is exact.**  For every line and every choice of classes, the rule and the fields that
`recognize` finds are those of the first rule in the whole catalog that is of an allowed class and
matches the trimmed line; and every rule that matches a trimmed line is of the line's class. -/
theorem recognize_eq_firstInCatalog (allowed : LineClass → Bool) (line : String) :
    recognize allowed line = firstInCatalog allowed (Text.trim line.toList) ∧
      ∀ rule ∈ catalog, (rule.match? (Text.trim line.toList)).isSome = true →
        LineClass.ofLine (Text.trim line.toList) = rule.lineClass := by
  have hclass : ∀ rule ∈ catalog, (rule.match? (Text.trim line.toList)).isSome = true →
      LineClass.ofLine (Text.trim line.toList) = rule.lineClass := by
    intro rule hrule h
    obtain ⟨caps, hcaps⟩ := Option.isSome_iff_exists.mp (match?_isSome_iff.mp h)
    exact ofLine_of_captures hrule hcaps
  refine ⟨?_, hclass⟩
  show (if allowed (LineClass.ofLine (Text.trim line.toList)) = true then _ else _) = _
  rw [firstInCatalog, ofClass_eq_filter]
  split
  · rename_i hallowed
    refine findSome?_filter_congr catalog fun rule hrule h => ?_
    rw [← hclass rule hrule h, hallowed]
    simp
  · rename_i hallowed
    symm
    rw [List.findSome?_eq_none_iff]
    intro rule hmem
    obtain ⟨hrule, hin⟩ := List.mem_filter.mp hmem
    cases hm : rule.match? (Text.trim line.toList) with
    | none => rfl
    | some m =>
      rw [hclass rule hrule (by rw [hm]; rfl)] at hallowed
      exact absurd hin hallowed

/-- The line `elsewhere`, which no first word of a branch line begins, with every class allowed. -/
theorem recognize_elsewhere :
    Catalog.elseBranch ∈ catalog ∧
    (Catalog.elseBranch.match? (Text.trim " elsewhere\t".toList)).isSome = true ∧
    recognize LineClass.any " elsewhere\t"
      = firstInCatalog LineClass.any (Text.trim " elsewhere\t".toList) ∧
    LineClass.ofLine (Text.trim " elsewhere\t".toList) = Catalog.elseBranch.lineClass := by
  have hmem : Catalog.elseBranch ∈ catalog := by decide +kernel
  have hmatch : (Catalog.elseBranch.match? (Text.trim " elsewhere\t".toList)).isSome = true := by
    decide +kernel
  have h := recognize_eq_firstInCatalog LineClass.any " elsewhere\t"
  exact ⟨hmem, hmatch, h.1, h.2 _ hmem hmatch⟩

end RoutePolicy
