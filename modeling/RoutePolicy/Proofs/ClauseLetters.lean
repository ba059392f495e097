import Mathlib.Data.List.Infix
import RoutePolicy.Proofs.ConditionGrammar

/-!
# The letters of a condition

Any text can stand as a condition, with parentheses in any place.  Cutting it into clauses drops and
adds blanks and parentheses and moves a connective over the parentheses of a group, and all else
stays where it is.  The one thing that can get lost is a connective behind a group without a word in
it, which has no last clause to take it.

* `letters`               the characters of a text but for blanks and parentheses;
* `HollowPair`            two matching parentheses with no letter between them;
* `letters_partClauses`   one part of the cut keeps its letters, if its group does;
* `clauses_letters`       so the clauses of a condition without hollow pairs have its letters.
-/

namespace RoutePolicy

namespace Condition

/-! ## Letters -/

/-- A character that is neither blank nor a parenthesis. -/
def isLetter (c : Char) : Bool :=
  !Text.isBlank c && c ≠ '(' && c ≠ ')'

/-- The letters of a text, in order. -/
def letters (cs : List Char) : List Char :=
  cs.filter isLetter

theorem letters_append (cs ds : List Char) : letters (cs ++ ds) = letters cs ++ letters ds :=
  List.filter_append cs ds

theorem letters_flatten_append (a b : List (List Char)) :
    letters (a ++ b).flatten = letters a.flatten ++ letters b.flatten := by
  rw [List.flatten_append, letters_append]

/-- Blanks do not matter to the letters. -/
theorem letters_filter (cs : List Char) :
    letters (cs.filter fun c => !Text.isBlank c) = letters cs := by
  rw [letters, List.filter_filter, letters]
  refine List.filter_congr fun c _ => ?_
  cases hc : Text.isBlank c <;> simp [isLetter, hc]

theorem letters_unwords (ws : List (List Char)) :
    letters (Text.unwords ws) = letters ws.flatten := by
  rw [← letters_filter, Text.filter_unwords, letters_filter]

theorem letters_group (inner : List Char) : letters ('(' :: inner ++ [')']) = letters inner := by
  have hopen : letters ['('] = [] := by decide
  have hclose : letters [')'] = [] := by decide
  have hcons : '(' :: inner = ['('] ++ inner := rfl
  rw [hcons, letters_append, letters_append, hopen, hclose, List.nil_append, List.append_nil]

/-! ## Hollow pairs -/

/-- Nor do blanks matter to the balance. -/
theorem balanced_filter_iff {cs : List Char} :
    Balanced (cs.filter fun c => !Text.isBlank c) ↔ Balanced cs := by
  rw [← balanced_iff, ← balanced_iff, balanced, balanced, balancedFrom_filter]

/-- Two parentheses match, and between them there are blanks and parentheses only. -/
def HollowPair (cs : List Char) : Prop :=
  ∃ inner, '(' :: inner ++ [')'] <:+: cs ∧ Balanced inner ∧ letters inner = []

instance (cs : List Char) : Decidable (HollowPair cs) :=
  decidable_of_iff
    (∃ tail ∈ cs.tails, ∃ piece ∈ tail.inits, ∃ inner ∈ inside? piece, letters inner = []) <| by
    simp only [List.mem_tails, List.mem_inits, Option.mem_def, inside?_eq_some_iff, balanced_iff]
    constructor
    · rintro ⟨tail, htail, _, hpiece, inner, ⟨rfl, hbalanced⟩, hletters⟩
      exact ⟨inner, hpiece.isInfix.trans htail.isInfix, hbalanced, hletters⟩
    · rintro ⟨inner, hwithin, hbalanced, hletters⟩
      obtain ⟨tail, hpiece, htail⟩ := List.infix_iff_prefix_suffix.mp hwithin
      exact ⟨tail, htail, _, hpiece, inner, ⟨rfl, hbalanced⟩, hletters⟩

namespace HollowPair
variable {cs ds : List Char}

theorem mono (h : HollowPair cs) (hwithin : cs <:+: ds) : HollowPair ds := by
  obtain ⟨inner, hinner, hbalanced, hletters⟩ := h
  exact ⟨inner, hinner.trans hwithin, hbalanced, hletters⟩

theorem filter (h : HollowPair cs) : HollowPair (cs.filter fun c => !Text.isBlank c) := by
  obtain ⟨inner, ⟨before, after, rfl⟩, hbalanced, hletters⟩ := h
  refine ⟨inner.filter fun c => !Text.isBlank c, ⟨before.filter fun c => !Text.isBlank c,
    after.filter fun c => !Text.isBlank c, ?_⟩, balanced_filter_iff.mpr hbalanced, ?_⟩
  · simp [List.filter_append, Text.isBlank_open, Text.isBlank_close]
  · rw [letters_filter, hletters]

theorem of_filter (h : HollowPair (cs.filter fun c => !Text.isBlank c)) : HollowPair cs := by
  obtain ⟨inner, ⟨before, after, hsplit⟩, hbalanced, hletters⟩ := h
  have hsplit : before ++ ('(' :: (inner ++ (')' :: after))) =
      cs.filter fun c => !Text.isBlank c := by
    rw [← hsplit]
    simp
  obtain ⟨front, behind, rfl, _, hopen⟩ := List.filter_eq_append_iff.mp hsplit.symm
  obtain ⟨gap, inside, rfl, _, _, hinside⟩ := List.filter_eq_cons_iff.mp hopen
  obtain ⟨between, stop, rfl, hbetween, hstop⟩ := List.filter_eq_append_iff.mp hinside
  obtain ⟨gap', rest, rfl, hblanks, _, _⟩ := List.filter_eq_cons_iff.mp hstop
  -- the blanks in front of the closing parenthesis belong to the inside
  have hgap' : gap'.filter (fun c => !Text.isBlank c) = [] := List.filter_eq_nil_iff.mpr hblanks
  have hinner : (between ++ gap').filter (fun c => !Text.isBlank c) = inner := by
    rw [List.filter_append, hbetween, hgap', List.append_nil]
  refine ⟨between ++ gap', ⟨front ++ gap, rest, by simp⟩, ?_, ?_⟩
  · rw [← balanced_filter_iff, hinner]
    exact hbalanced
  · rw [← letters_filter, hinner]
    exact hletters

end HollowPair

/-! ## One part of the cut -/

theorem splitConnective_append (ws : List (List Char)) :
    (splitConnective ws).1 ++ (splitConnective ws).2.toList = ws := by
  unfold splitConnective
  split
  · rename_i w hlast
    split
    · obtain ⟨before, rfl⟩ := List.getLast?_eq_some_iff.mp hlast
      rw [List.dropLast_concat]
      rfl
    · exact List.append_nil ws
  · exact List.append_nil ws

theorem letters_close (w? : Option (List Char)) {clauses : List (List Char)} (h : clauses ≠ []) :
    letters (close w? clauses).flatten = letters clauses.flatten ++ letters w?.toList.flatten := by
  obtain ⟨before, last, rfl⟩ : ∃ before last, clauses = before ++ [last] :=
    ⟨_, _, (List.dropLast_concat_getLast h).symm⟩
  cases w? with
  | none => exact (List.append_nil _).symm
  | some w =>
    have hspace : letters [' '] = [] := by decide
    have hcons : ' ' :: w = [' '] ++ w := rfl
    rw [close_some_concat, letters_flatten_append, letters_flatten_append, List.append_assoc]
    simp only [List.flatten_singleton, Option.toList_some, letters_append, hcons, hspace,
      List.nil_append]

/-- A part of the cut keeps its letters, if the inside of its group does and is not hollow. -/
theorem letters_partClauses {ws : List (List Char)} (hhollow : ¬ HollowPair ws.flatten)
    (hinside : ∀ inner, inside? (Text.unwords (splitConnective ws).1) = some inner →
      ¬ HollowPair inner → letters (clausesOf inner).flatten = letters inner) :
    letters (partClauses ws).flatten = letters ws.flatten := by
  unfold partClauses
  split
  · rename_i inner hinner
    obtain ⟨hgroup, hbalanced⟩ := inside?_eq_some_iff.mp hinner
    have hwords : letters (splitConnective ws).1.flatten = letters inner := by
      rw [← letters_unwords, hgroup, letters_group]
    -- a hollow pair in the group is one in the part
    have hpart : ¬ HollowPair ('(' :: inner ++ [')']) := by
      intro h
      rw [← hgroup] at h
      have hfilter := h.filter
      rw [Text.filter_unwords] at hfilter
      have hws := congrArg List.flatten (splitConnective_append ws)
      rw [List.flatten_append] at hws
      exact hhollow (hfilter.of_filter.mono (hws ▸ (List.prefix_append _ _).isInfix))
    have hletters : letters inner ≠ [] := fun hnil =>
      hpart ⟨inner, List.infix_refl _, balanced_iff.mp hbalanced, hnil⟩
    have hkept := hinside inner hinner fun h => hpart (h.mono ⟨['('], [')'], rfl⟩)
    have hne : clausesOf inner ≠ [] := by
      intro hnil
      rw [hnil] at hkept
      exact hletters hkept.symm
    rw [letters_close _ hne, hkept, ← hwords, ← letters_flatten_append, splitConnective_append]
  · rw [List.flatten_singleton, letters_unwords]

/-! ## All parts -/

theorem letters_flatMap {parts : List (List (List Char))}
    {f : List (List Char) → List (List Char)}
    (h : ∀ part ∈ parts, letters (f part).flatten = letters part.flatten) :
    letters (parts.flatMap f).flatten = letters parts.flatten.flatten := by
  induction parts with
  | nil => rfl
  | cons part parts ih =>
    obtain ⟨hpart, hparts⟩ := List.forall_mem_cons.mp h
    rw [List.flatMap_cons, letters_flatten_append, hpart, ih hparts, List.flatten_cons,
      letters_flatten_append]

theorem letters_clausesOf (cs : List Char) (h : ¬ HollowPair cs) :
    letters (clausesOf cs).flatten = letters cs := by
  induction cs using groups_induction with
  | step cs ih =>
    have hflat : (cut 0 (Text.words cs)).flatten.flatten = cs.filter fun c => !Text.isBlank c := by
      rw [cut_flatten, Text.flatten_words]
    have hparts : ∀ part ∈ cut 0 (Text.words cs),
        letters (partClauses part).flatten = letters part.flatten := by
      intro part hpart
      refine letters_partClauses (fun hhollow => h (.of_filter ?_)) (ih part hpart)
      rw [← hflat]
      obtain ⟨before, after, hsplit⟩ := List.append_of_mem hpart
      rw [hsplit]
      exact hhollow.mono ⟨before.flatten.flatten, after.flatten.flatten, by simp⟩
    rw [clausesOf_eq_partClauses, letters_flatMap hparts, hflat, letters_filter]

end Condition

open Condition

/-- **Cutting a condition into clauses keeps its text.**  Whatever the condition, balanced or not,
each of its clauses is words with single spaces between them, at least one word and no blank around
them; and if no two matching parentheses enclose nothing but blanks and parentheses, the clauses
have the same letters as the condition, none lost, none twice and all in their order. -/
theorem clauses_letters (condition : String) :
    (∀ clause ∈ clauses condition,
      clause ≠ "" ∧ Line.trim clause = clause ∧ Text.Spaced clause.toList) ∧
    (¬ HollowPair condition.toList →
      letters ((clauses condition).flatMap String.toList) = letters condition.toList) := by
  refine ⟨fun clause hclause => ?_, fun hhollow => ?_⟩
  · have hspaced := spaced_clauses hclause
    refine ⟨?_, ?_, hspaced⟩
    · rintro rfl
      exact hspaced.words_ne_nil rfl
    · rw [Line.trim, hspaced.trim_eq, String.ofList_toList]
  · have htexts : (clauses condition).flatMap String.toList
        = (clausesOf condition.toList).flatten := by
      rw [clauses, List.flatMap_map, List.flatten_eq_flatMap]
      exact congrArg (List.flatMap · _) (funext fun cs => String.toList_ofList)
    rw [htexts, letters_clausesOf _ hhollow]

/-- A parenthesis too many on either side: the groups that match lose their parentheses, and the
connective behind the first one goes to its last clause. -/
theorem clauses_letters_unbalanced :
    clauses "((a and) or\t(b)) and ) c or (d and" = ["a and or", "b and", ") c or", "(d and"] ∧
    (Line.trim "b and" = "b and" ∧ Text.Spaced "b and".toList) ∧
    ¬ HollowPair "((a and) or\t(b)) and ) c or (d and".toList ∧
    letters ((clauses "((a and) or\t(b)) and ) c or (d and").flatMap String.toList)
      = "aandorbandcordand".toList := by
  have hclause : "b and" ∈ clauses "((a and) or\t(b)) and ) c or (d and" := by decide +kernel
  have hhollow : ¬ HollowPair "((a and) or\t(b)) and ) c or (d and".toList := by decide +kernel
  refine ⟨by decide +kernel, ((clauses_letters _).1 _ hclause).2, hhollow, ?_⟩
  rw [(clauses_letters _).2 hhollow]
  decide +kernel

/-- A connective behind a hollow pair gets lost. -/
example : HollowPair "() and x".toList ∧ clauses "() and x" = ["x"] := by
  decide +kernel

end RoutePolicy
