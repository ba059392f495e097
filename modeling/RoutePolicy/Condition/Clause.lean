import RoutePolicy.Text.Trim
import RoutePolicy.Text.Words

/-!
# Clauses of a condition

A condition is cut into clauses after each `and` or `or` that stands outside parentheses; the
connective stays at the end of the clause that it closes.  A clause that is one parenthesised group
is cut again, and the connective behind the group goes to the last clause inside.  Parentheses
elsewhere in a clause enclose a set and are left alone.

The recursion into groups ends because a group has two characters more than its inside
(`weight_inside_lt`).
-/

namespace RoutePolicy.Condition

/-! ## Parentheses -/

/-- The depth after one character; a closing parenthesis at depth zero has no effect. -/
def deepen (depth : Nat) (c : Char) : Nat :=
  if c = '(' then depth + 1 else if c = ')' then depth - 1 else depth

/-- Whether every parenthesis has its partner, when `depth` of them are open already. -/
def balancedFrom (depth : Nat) : List Char → Bool
  | [] => depth = 0
  | c :: cs =>
    if c = ')' then depth ≠ 0 && balancedFrom (depth - 1) cs
    else balancedFrom (deepen depth c) cs

/-- Whether every parenthesis has its partner. -/
def balanced (cs : List Char) : Bool :=
  balancedFrom 0 cs

/-- The inside of a text that is one group. -/
def inside? : List Char → Option (List Char)
  | '(' :: cs =>
    if cs.getLast? = some ')' ∧ balanced cs.dropLast = true then some cs.dropLast else none
  | _ => none

/-! ## Cutting at connectives -/

/-- Whether a word joins two clauses. -/
def isConnective (w : List Char) : Bool :=
  w = "and".toList || w = "or".toList

/-- Cuts words after each connective outside parentheses. -/
def cut (depth : Nat) : List (List Char) → List (List (List Char))
  | [] => []
  | w :: ws =>
    let after := w.foldl deepen depth
    if after = 0 ∧ isConnective w = true then [w] :: cut 0 ws
    else Text.pushFirst w (cut after ws)

/-- A clause without the connective that closes it, and the connective.  A clause that is a
connective alone has none that closes it. -/
def splitConnective (ws : List (List Char)) : List (List Char) × Option (List Char) :=
  match ws.getLast? with
  | some w => if ws.dropLast ≠ [] ∧ isConnective w = true then (ws.dropLast, some w) else (ws, none)
  | none => (ws, none)

/-- Puts a connective behind the last clause. -/
def close (connective : Option (List Char)) (clauses : List (List Char)) : List (List Char) :=
  match connective, clauses.getLast? with
  | some w, some c => clauses.dropLast ++ [c ++ ' ' :: w]
  | _, _ => clauses

theorem cut_flatten (depth : Nat) (ws : List (List Char)) : (cut depth ws).flatten = ws := by
  induction ws generalizing depth with
  | nil => rfl
  | cons w ws ih =>
    simp only [cut]
    split <;> simp [ih]

/-! ## Why the recursion ends -/

/-- The number of characters that are not blank. -/
def weight (cs : List Char) : Nat :=
  (cs.filter fun c => !Text.isBlank c).length

theorem weight_unwords (ws : List (List Char)) : weight (Text.unwords ws) = weight ws.flatten := by
  rw [weight, Text.filter_unwords, weight]

theorem weight_append (a b : List Char) : weight (a ++ b) = weight a + weight b := by
  simp [weight]

theorem weight_flatten_words (cs : List Char) : weight (Text.words cs).flatten = weight cs := by
  rw [Text.flatten_words]
  simp [weight]

theorem weight_flatten_mem_le {c : List (List Char)} {cs : List (List (List Char))} (h : c ∈ cs) :
    weight c.flatten ≤ weight cs.flatten.flatten := by
  induction cs with
  | nil => simp at h
  | cons d cs ih =>
    rw [List.flatten_cons, List.flatten_append, weight_append]
    rcases List.mem_cons.mp h with rfl | h
    · exact Nat.le_add_right _ _
    · exact Nat.le_trans (ih h) (Nat.le_add_left _ _)

theorem weight_splitConnective_le (ws : List (List Char)) :
    weight (splitConnective ws).1.flatten ≤ weight ws.flatten := by
  unfold splitConnective
  cases h : ws.getLast? with
  | none => simp
  | some w =>
    have hne : ws ≠ [] := by
      rintro rfl
      simp at h
    have hw : ws.getLast hne = w := by
      rw [List.getLast?_eq_some_getLast hne] at h
      exact Option.some.inj h
    have hws : ws = ws.dropLast ++ [w] := by
      rw [← hw, List.dropLast_concat_getLast]
    by_cases hc : ws.dropLast ≠ [] ∧ isConnective w = true
    · simp only [hc, ne_eq, not_false_eq_true, and_self, if_true]
      conv => rhs; rw [hws]
      rw [List.flatten_append, weight_append]
      exact Nat.le_add_right _ _
    · simp only [hc, if_false]
      exact Nat.le_refl _

theorem weight_inside_lt {cs inner : List Char} (h : inside? cs = some inner) :
    weight inner < weight cs := by
  unfold inside? at h
  split at h
  · rename_i cs
    split at h
    · simp only [Option.some.injEq] at h
      have : weight cs.dropLast ≤ weight cs := by
        simp only [weight]
        exact (cs.dropLast_sublist.filter _).length_le
      rw [← h]
      have hw : weight ('(' :: cs) = weight cs + 1 := by
        simp [weight, Text.isBlank_open]
      omega
    · simp at h
  · simp at h

/-! ## Clauses -/

/-- The clauses of a condition, each with its words joined by single spaces. -/
def clausesOf (cs : List Char) : List (List Char) :=
  (cut 0 (Text.words cs)).attach.flatMap fun ⟨ws, _hws⟩ =>
    match _h : inside? (Text.unwords (splitConnective ws).1) with
    | some inner => close (splitConnective ws).2 (clausesOf inner)
    | none => [Text.unwords ws]
termination_by weight cs
decreasing_by
  have h1 := weight_inside_lt _h
  have h2 := weight_splitConnective_le ws
  have h3 := weight_flatten_mem_le _hws
  rw [weight_unwords] at h1
  rw [cut_flatten, weight_flatten_words] at h3
  omega

/-- The clauses of a condition, one top-level part after the other. -/
theorem clausesOf_eq (cs : List Char) :
    clausesOf cs = (cut 0 (Text.words cs)).flatMap fun ws =>
      match inside? (Text.unwords (splitConnective ws).1) with
      | some inner => close (splitConnective ws).2 (clausesOf inner)
      | none => [Text.unwords ws] := by
  conv => lhs; rw [clausesOf]
  conv => rhs; rw [← List.attach_map_subtype_val (cut 0 (Text.words cs))]
  rw [List.flatMap_map]
  congr 1
  funext ⟨ws, _⟩
  dsimp only
  split <;> rename_i h <;> simp [h]

end RoutePolicy.Condition

namespace RoutePolicy

/-- The clauses of a condition. -/
def clauses (condition : String) : List String :=
  (Condition.clausesOf condition.toList).map String.ofList

end RoutePolicy
