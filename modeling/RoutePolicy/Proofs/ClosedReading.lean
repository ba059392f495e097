import RoutePolicy.Proofs.ClauseLayout

/-!
# Reading in front of a closing connective

What happens when a text ends with `and` or `or` and the connective is the last operand is one
equation (`readOperands_closed`): the operands read the text before that word, as they would
without the connective, and the connective reads the word.  It holds for operands that leave the
word alone: those whose forms refuse it, and reluctant ones, which are skipped as long as the rest
can do without them.

The other way round (`readOperands_unclosed`): a reading in which the connective takes nothing is
the reading of the operands before it.
-/

namespace RoutePolicy

/-! ## One form in front of a closing word -/

namespace Form

theorem readGroup_first {inner : List Char} (h : ')' ∉ inner) (after : List Char) :
    readGroup ('(' :: (inner ++ ')' :: after)) = some ('(' :: inner ++ [')'], after) := by
  have hinner : ∀ c ∈ inner, decide (c ≠ ')') = true := by
    intro c hc
    rw [decide_eq_true_iff]
    rintro rfl
    exact h hc
  rw [readGroup, List.dropWhile_append_of_pos hinner, List.takeWhile_append_of_pos hinner]
  simp

theorem readGroup_eq_none {cs : List Char} (h : ')' ∉ cs) : readGroup cs = none := by
  cases hread : readGroup cs with
  | none => rfl
  | some r =>
    obtain ⟨taken, after⟩ := r
    obtain ⟨inner, rfl, _⟩ := accepts_of_readGroup hread
    refine absurd ?_ h
    rw [← readGroup_append hread]
    simp

section
variable {b : Char} (hb : Text.isBlank b = true) {k : List Char}
include hb

theorem readWord_closed (test : List Char → Bool) (cs : List Char) :
    readWord test (cs ++ b :: k) = (readWord test cs).map fun r => (r.1, r.2 ++ b :: k) := by
  have hsolid : isSolid b = false := by simp [isSolid, hb]
  have htake : (cs ++ b :: k).takeWhile isSolid = cs.takeWhile isSolid := by
    induction cs with
    | nil => simp [hsolid]
    | cons c cs ih => cases hc : isSolid c <;> simp [hc, ih]
  have hdrop : (cs ++ b :: k).dropWhile isSolid = cs.dropWhile isSolid ++ b :: k := by
    have hsame : cs.takeWhile isSolid ++ (cs ++ b :: k).dropWhile isSolid
        = cs.takeWhile isSolid ++ (cs.dropWhile isSolid ++ b :: k) := by
      rw [← List.append_assoc, List.takeWhile_append_dropWhile, ← htake,
        List.takeWhile_append_dropWhile]
    exact List.append_cancel_left hsame
  simp only [readWord, htake, hdrop]
  split <;> rfl

theorem readGroup_closed (hk : ')' ∉ k) (cs : List Char) :
    readGroup (cs ++ b :: k) = (readGroup cs).map fun r => (r.1, r.2 ++ b :: k) := by
  have htail : ')' ∉ b :: k := by
    rw [List.mem_cons, not_or]
    refine ⟨?_, hk⟩
    rintro rfl
    exact absurd hb (by decide)
  by_cases hclose : ')' ∈ cs
  · cases cs with
    | nil => exact absurd hclose (by simp)
    | cons c cs =>
      by_cases hopen : c = '('
      · subst hopen
        have hmem : ')' ∈ cs := by simpa using hclose
        obtain ⟨inner, after, rfl, hinner⟩ := List.eq_append_cons_of_mem hmem
        rw [List.cons_append, List.append_assoc, List.cons_append, readGroup_first hinner,
          readGroup_first hinner]
        rfl
      · simp [readGroup, hopen]
  · rw [readGroup_eq_none hclose, readGroup_eq_none]
    · rfl
    · rw [List.mem_append, not_or]
      exact ⟨hclose, htail⟩

/-- A form takes the same in front of a closing word, and leaves the word. -/
theorem read_closed (hk : ')' ∉ k) {form : Form} (hform : form ≠ .rest) (cs : List Char) :
    form.read (cs ++ b :: k) = (form.read cs).map fun r => (r.1, r.2 ++ b :: k) := by
  cases form with
  | group => exact readGroup_closed hb hk cs
  | rest => exact absurd rfl hform
  | _ =>
    simp only [read]
    exact readWord_closed hb _ cs

end

end Form

/-! ## Operands that leave a closing connective alone -/

namespace Operand

/-- no form takes all that is left -/
def isBounded (o : Operand) : Bool :=
  o.choices.all fun choice => choice.2 ≠ .rest

/-- no form takes a connective -/
def refuses (o : Operand) : Bool :=
  o.choices.all fun choice =>
    (choice.2.read "and".toList).isNone && (choice.2.read "or".toList).isNone

end Operand

/-- Operands whose forms refuse a connective, or that are skipped when only a connective is left. -/
def leavesConnective : List Operand → Bool
  | [] => true
  | o :: os =>
    (o.refuses || o.presence = .reluctant && os.all fun o => o.presence ≠ .required)
      && leavesConnective os

section
variable {b : Char} (hb : Text.isBlank b = true) {k : List Char}
  (hk : Condition.isConnective k = true)
include hb hk

theorem Operand.ways_closed {o : Operand} (ho : o.isBounded = true) {cs : List Char}
    (hne : cs ≠ []) :
    o.ways (cs ++ b :: k) = (o.ways cs).map fun way => (way.1, way.2 ++ b :: k) := by
  have hparen := Condition.close_not_mem_connective hk
  obtain ⟨c, cs, rfl⟩ := List.exists_cons_of_ne_nil hne
  rw [List.cons_append, ways, ways]
  split
  · rw [List.map_filterMap]
    refine List.filterMap_congr fun choice hchoice => ?_
    have hform : choice.2 ≠ .rest := by
      have := List.all_eq_true.mp ho choice hchoice
      simpa using this
    rw [Form.read_closed hb hparen hform, Option.map_map, Option.map_map]
    rfl
  · rfl

theorem Operand.ways_connective {o : Operand} (ho : o.refuses = true) : o.ways (b :: k) = [] := by
  rw [ways, if_pos hb, List.filterMap_eq_nil_iff]
  intro choice hchoice
  have hboth := List.all_eq_true.mp ho choice hchoice
  rw [Bool.and_eq_true, Option.isNone_iff_eq_none, Option.isNone_iff_eq_none] at hboth
  rcases Condition.isConnective_iff.mp hk with rfl | rfl
  · exact Option.map_eq_none_iff.mpr hboth.1
  · exact Option.map_eq_none_iff.mpr hboth.2

theorem Catalog.ways_connective_self :
    connective.ways (b :: k) = [(("combine_condition", String.ofList k), [])] := by
  rw [Operand.ways, if_pos hb]
  rcases Condition.isConnective_iff.mp hk with rfl | rfl <;> rfl

end

/-! ## The operands before the connective -/

/-- the readings that take an operand -/
def readTaken (o : Operand) (os : List Operand) (cs : List Char) : Option Captures :=
  (o.ways cs).findSome? fun way => (readOperands os way.2).map (way.1 :: ·)

theorem readOperands_cons (o : Operand) (os : List Operand) (cs : List Char) :
    readOperands (o :: os) cs = match o.presence with
      | .required => readTaken o os cs
      | .optional => (readTaken o os cs).or (readOperands os cs)
      | .reluctant => (readOperands os cs).or (readTaken o os cs) := by
  simp only [readOperands, Option.orElse_eq_orElse, Option.orElse_eq_or]
  rfl

theorem readTaken_nil (o : Operand) (os : List Operand) : readTaken o os [] = none := rfl

theorem readOperands_nil_of_skippable {os : List Operand}
    (h : (os.all fun o => o.presence ≠ .required) = true) : readOperands os [] = some [] := by
  induction os with
  | nil => rfl
  | cons o os ih =>
    rw [List.all_cons, Bool.and_eq_true, decide_eq_true_iff] at h
    rw [readOperands_cons, readTaken_nil, ih h.2]
    cases hpresence : o.presence with
    | required => exact absurd hpresence h.1
    | optional => rfl
    | reluctant => rfl

section
variable {b : Char} (hb : Text.isBlank b = true) {k : List Char}
  (hk : Condition.isConnective k = true)
include hb hk

/-- In front of a closing word, an operand and the operands behind it read what they read without
the word, if the operands behind it do so. -/
theorem readOperands_closed_cons {o : Operand} (ho : o.isBounded = true) {os : List Operand}
    (ih : ∀ cs, readOperands (os ++ [Catalog.connective]) (cs ++ b :: k)
      = (readOperands os cs).map (· ++ [("combine_condition", String.ofList k)]))
    {cs : List Char} (hne : cs ≠ []) :
    readOperands (o :: os ++ [Catalog.connective]) (cs ++ b :: k)
      = (readOperands (o :: os) cs).map (· ++ [("combine_condition", String.ofList k)]) := by
  have htaken : readTaken o (os ++ [Catalog.connective]) (cs ++ b :: k)
      = (readTaken o os cs).map (· ++ [("combine_condition", String.ofList k)]) := by
    rw [readTaken, Operand.ways_closed hb hk ho hne, List.findSome?_map, readTaken,
      List.map_findSome?]
    congr 1
    funext way
    show (readOperands (os ++ [Catalog.connective]) (way.2 ++ b :: k)).map _ = _
    rw [ih, Option.map_map, Function.comp_apply, Option.map_map]
    rfl
  rw [List.cons_append, readOperands_cons, readOperands_cons, htaken, ih]
  cases o.presence with
  | required => rfl
  | optional => exact Option.map_or.symm
  | reluctant => exact Option.map_or.symm

/-- **The closing word goes to the connective.** -/
theorem readOperands_closed {os : List Operand}
    (hbounded : ∀ o ∈ os, o.isBounded = true) (hleaves : leavesConnective os = true)
    (cs : List Char) :
    readOperands (os ++ [Catalog.connective]) (cs ++ b :: k)
      = (readOperands os cs).map (· ++ [("combine_condition", String.ofList k)]) := by
  induction os generalizing cs with
  | nil =>
    rw [List.nil_append, readOperands_cons]
    show (readTaken Catalog.connective [] (cs ++ b :: k)).or (readOperands [] (cs ++ b :: k)) = _
    have hskip : readOperands [] (cs ++ b :: k) = none := by
      cases cs <;> rfl
    rw [hskip, Option.or_none, readTaken]
    cases cs with
    | nil =>
      rw [List.nil_append, Catalog.ways_connective_self hb hk]
      rfl
    | cons c cs =>
      -- a word off the front leaves the closing word, and nothing reads that
      rw [Operand.ways_closed hb hk (by decide) (List.cons_ne_nil c cs), List.findSome?_map]
      show _ = none
      rw [List.findSome?_eq_none_iff]
      intro way _
      show (readOperands [] (way.2 ++ b :: k)).map _ = none
      cases way.2 <;> rfl
  | cons o os ih =>
    have hos := ih (fun o' ho' => hbounded o' (List.mem_cons_of_mem _ ho'))
      (by rw [leavesConnective, Bool.and_eq_true] at hleaves; exact hleaves.2)
    by_cases hne : cs = []
    · subst hne
      rw [leavesConnective, Bool.and_eq_true, Bool.or_eq_true, Bool.and_eq_true,
        decide_eq_true_iff] at hleaves
      have hnil := hos []
      rw [List.nil_append] at hnil ⊢
      rw [List.cons_append, readOperands_cons, readOperands_cons, readTaken_nil, hnil]
      rcases hleaves.1 with hrefuses | ⟨hreluctant, hskippable⟩
      · have htaken : readTaken o (os ++ [Catalog.connective]) (b :: k) = none := by
          rw [readTaken, Operand.ways_connective hb hk hrefuses]
          rfl
        rw [htaken]
        cases o.presence with
        | required => rfl
        | optional => rfl
        | reluctant => rw [Option.or_none, Option.or_none]
      · rw [hreluctant, readOperands_nil_of_skippable hskippable]
        rfl
    · exact readOperands_closed_cons hb hk (hbounded o List.mem_cons_self) hos hne

/-- Keywords are read as they are without a closing connective, which is none of them. -/
theorem Pattern.readHead_closed {head : List (List String)} (hproper : properHead head = true)
    (cs : List Char) : readHead head (cs ++ b :: k) = (readHead head cs).map (· ++ b :: k) := by
  have hparen := Condition.close_not_mem_connective hk
  induction head generalizing cs with
  | nil => rfl
  | cons spellings more ih =>
    rw [properHead, List.all_cons, Bool.and_eq_true] at hproper
    cases cs with
    | nil =>
      have hword : k.takeWhile Form.isSolid = k := by
        rcases Condition.isConnective_iff.mp hk with rfl | rfl <;> decide
      have hother : (spellings.any fun t => t.toList == k) = false := by
        rw [List.any_eq_false]
        intro t ht heq
        have hkeyword := List.all_eq_true.mp hproper.1 t ht
        rw [beq_iff_eq.mp heq, hk] at hkeyword
        exact absurd hkeyword (by simp)
      have hnone : (Form.oneOf spellings).read k = none := by
        simp [Form.read, Form.readWord, hword, hother]
      show readHead (spellings :: more) (b :: k) = none
      rw [readHead, if_pos hb, hnone]
    | cons c cs =>
      rw [List.cons_append, readHead, readHead, Form.read_closed hb hparen (by simp)]
      split
      · cases (Form.oneOf spellings).read cs with
        | none => rfl
        | some r => exact ih hproper.2 r.2
      · rfl

end

/-! ## Readings without a connective -/

/-- The second result is the first, unless the first has a connective. -/
def Unclosed (a b : Option Captures) : Prop :=
  (a = none → b = none) ∧
    ∀ caps, a = some caps → "combine_condition" ∉ Entries.keys caps → b = some caps

namespace Unclosed
variable {a b a' b' : Option Captures}

theorem refl (a : Option Captures) : Unclosed a a :=
  ⟨fun h => h, fun _ h _ => h⟩

theorem or (h : Unclosed a b) (h' : Unclosed a' b') : Unclosed (a.or a') (b.or b') := by
  cases a with
  | none =>
    rw [h.1 rfl]
    exact h'
  | some caps =>
    refine ⟨fun hnone => absurd hnone (by simp), fun caps' hcaps hnot => ?_⟩
    rw [h.2 caps' hcaps hnot]
    rfl

theorem map_cons (h : Unclosed a b) (entry : String × String) :
    Unclosed (a.map (entry :: ·)) (b.map (entry :: ·)) := by
  cases a with
  | none =>
    rw [h.1 rfl]
    exact refl _
  | some caps =>
    refine ⟨fun hnone => absurd hnone (by simp), fun caps' hcaps hnot => ?_⟩
    obtain rfl := Option.some.inj hcaps
    have hrest : "combine_condition" ∉ Entries.keys caps := fun hmem =>
      hnot (List.mem_cons_of_mem _ hmem)
    rw [h.2 caps rfl hrest]
    rfl

theorem findSome? {α : Type} {f g : α → Option Captures} (h : ∀ x, Unclosed (f x) (g x))
    (l : List α) : Unclosed (l.findSome? f) (l.findSome? g) := by
  induction l with
  | nil => exact refl none
  | cons x l ih =>
    have hor : ∀ f : α → Option Captures, (x :: l).findSome? f = (f x).or (l.findSome? f) := by
      intro f
      rw [List.findSome?_cons]
      cases f x <;> rfl
    rw [hor, hor]
    exact (h x).or ih

end Unclosed

theorem readOperands_unclosed (os : List Operand) (cs : List Char) :
    Unclosed (readOperands (os ++ [Catalog.connective]) cs) (readOperands os cs) := by
  induction os generalizing cs with
  | nil =>
    rw [List.nil_append, readOperands_cons]
    -- whatever the connective takes, it writes down
    have htaken : Unclosed (readTaken Catalog.connective [] cs) none := by
      refine ⟨fun _ => rfl, fun caps hcaps hnot => absurd ?_ hnot⟩
      obtain ⟨way, hway, hmap⟩ := List.exists_of_findSome?_eq_some hcaps
      obtain ⟨more, _, rfl⟩ := Option.map_eq_some_iff.mp hmap
      obtain ⟨_, _, key, form, _, _, _, _, hchoice, _, rfl⟩ := mem_ways hway
      obtain ⟨rfl, _⟩ := Prod.mk.inj (List.mem_singleton.mp hchoice)
      exact List.mem_cons_self
    exact htaken.or (.refl (readOperands [] cs))
  | cons o os ih =>
    have htaken : Unclosed (readTaken o (os ++ [Catalog.connective]) cs) (readTaken o os cs) := by
      unfold readTaken
      exact Unclosed.findSome? (fun way => (ih way.2).map_cons way.1) (o.ways cs)
    rw [List.cons_append, readOperands_cons, readOperands_cons]
    cases o.presence with
    | required => exact htaken
    | optional => exact htaken.or (ih cs)
    | reluctant => exact (ih cs).or htaken

end RoutePolicy
