import Mathlib.Data.List.Induction
import RoutePolicy.Proofs.PolicyBlock

/-!
# The lines of a body

Which lines of a text are the body of a policy, said of each line by what stands before it.  The scan
of a body carries a flag along; here the flag is said by the nearest header or end before the line.

* `Governed`                  the nearest such line before a place is a header of the policy;
* `insideBehind_eq_true_iff`  the flag is up at such a place, and, if it was up at the start, also
                              before the first header or end;
* `ownLine_step`              so what the scan gives for a line is its text, if it is the policy's own;
* `bodyFrom_eq_filter`        and the scan of a text gives these lines and no others.
-/

namespace RoutePolicy

/-! ## Inside a policy -/

/-- A line that opens a policy or closes one. -/
def IsMark (line : String) : Prop :=
  (headerName? line).isSome = true ∨ Line.trim line = endLine

/-- The last mark among these lines is a header with this name. -/
def Governed (name : String) (before : List String) : Prop :=
  ∃ front mark between, before = front ++ mark :: between ∧ headerName? mark = some name ∧
    ∀ line ∈ between, ¬ IsMark line

section
variable {name : String}

theorem not_governed_nil : ¬ Governed name [] := by
  rintro ⟨front, mark, between, hnil, _⟩
  exact absurd hnil.symm (by simp)

theorem governed_concat {before : List String} {line : String} :
    Governed name (before ++ [line]) ↔
      headerName? line = some name ∨ (¬ IsMark line ∧ Governed name before) := by
  constructor
  · rintro ⟨front, mark, between, hsplit, hname, hbetween⟩
    rcases List.eq_nil_or_concat between with rfl | ⟨between, last, rfl⟩
    · obtain ⟨_, hline⟩ := List.append_inj' hsplit rfl
      left
      rwa [(List.cons.inj hline).1]
    · rw [List.concat_eq_append] at hsplit hbetween
      have hsplit' : before ++ [line] = (front ++ mark :: between) ++ [last] := by simpa using hsplit
      obtain ⟨hbefore, hline⟩ := List.append_inj' hsplit' rfl
      right
      rw [(List.cons.inj hline).1]
      exact ⟨hbetween last (by simp), front, mark, between, hbefore, hname,
        fun l hl => hbetween l (List.mem_append_left _ hl)⟩
  · rintro (hname | ⟨hmark, front, mark, between, rfl, hname, hbetween⟩)
    · exact ⟨before, line, [], rfl, hname, fun _ hl => absurd hl List.not_mem_nil⟩
    · refine ⟨front, mark, between ++ [line], by simp, hname, ?_⟩
      exact List.forall_mem_append.mpr ⟨hbetween, List.forall_mem_singleton.mpr hmark⟩

/-- The flag is up behind a header of the policy up to the next mark; and if it is up at the start,
also before the first mark. -/
theorem insideBehind_eq_true_iff {start : Bool} {before : List String} :
    insideBehind name start before = true ↔
      Governed name before ∨ (start = true ∧ ∀ line ∈ before, ¬ IsMark line) := by
  induction before using List.reverseRecOn with
  | nil =>
    have hnil : ∀ line ∈ ([] : List String), ¬ IsMark line :=
      fun _ hline => absurd hline List.not_mem_nil
    rw [or_iff_right not_governed_nil, and_iff_left hnil]
    rfl
  | append_singleton before line ih =>
    rw [insideBehind_concat, governed_concat, List.forall_mem_append, List.forall_mem_singleton,
      insideAfter]
    cases hheader : headerName? line with
    | some header =>
      have hmark : IsMark line := .inl (by rw [hheader]; rfl)
      show decide (header = name) = true ↔ _
      simp only [decide_eq_true_iff, Option.some.injEq, hmark, not_true_eq_false, false_and,
        and_false, or_false]
    | none =>
      have hmark : IsMark line ↔ Line.trim line = endLine := by simp [IsMark, hheader]
      show (insideBehind name start before && decide (Line.trim line ≠ endLine)) = true ↔ _
      have hnone : (none : Option String) ≠ some name := (Option.some_ne_none name).symm
      rw [Bool.and_eq_true, ih, decide_eq_true_iff, hmark, or_iff_right hnone, or_and_right]
      exact or_congr and_comm and_assoc

end

instance (name : String) (before : List String) : Decidable (Governed name before) :=
  decidable_of_iff (insideBehind name false before = true) (by simp [insideBehind_eq_true_iff])

/-! ## Lines of a body -/

/-- A line of the policy's body in a text with these lines, of which some stand before it. -/
structure OwnLine (name : String) (lines before : List String) (line : String) : Prop where
  not_header : headerName? line = none
  not_blank : Line.trim line ≠ ""
  not_comment : (Line.trim line).toList.head? ≠ some '!'
  not_endif : Line.trim line ≠ "endif"
  not_end : Line.trim line ≠ endLine
  inside : if ∃ other ∈ lines, (headerName? other).isSome = true then Governed name before
    else ∀ other ∈ before, Line.trim other ≠ endLine

instance (name : String) (lines before : List String) (line : String) :
    Decidable (OwnLine name lines before line) :=
  decidable_of_iff (headerName? line = none ∧ Line.trim line ≠ "" ∧
      (Line.trim line).toList.head? ≠ some '!' ∧ Line.trim line ≠ "endif" ∧
      Line.trim line ≠ endLine ∧
      if ∃ other ∈ lines, (headerName? other).isSome = true then Governed name before
      else ∀ other ∈ before, Line.trim other ≠ endLine)
    ⟨fun ⟨h₁, h₂, h₃, h₄, h₅, h₆⟩ => ⟨h₁, h₂, h₃, h₄, h₅, h₆⟩, fun h =>
      ⟨h.not_header, h.not_blank, h.not_comment, h.not_endif, h.not_end, h.inside⟩⟩

/-- The lines of the policy's body, in order. -/
def ownLines (name : String) (lines : List String) : List String :=
  (lines.zipIdx.filter fun entry =>
    OwnLine name lines (lines.take entry.2) entry.1).map Prod.fst

/-- whether the scan of a text starts inside a body -/
def headerless (lines : List String) : Bool :=
  lines.all fun line => (headerName? line).isNone

section
variable {name : String} {lines before rest : List String} {line : String}

theorem insideBehind_headerless_iff (hbefore : before ⊆ lines) :
    insideBehind name (headerless lines) before = true ↔
      if ∃ other ∈ lines, (headerName? other).isSome = true then Governed name before
      else ∀ other ∈ before, Line.trim other ≠ endLine := by
  rw [insideBehind_eq_true_iff]
  split
  · rename_i hheader
    obtain ⟨other, hother, hsome⟩ := hheader
    have hstart : headerless lines = false := by
      rw [headerless, List.all_eq_false]
      exact ⟨other, hother, by simpa using Option.isSome_iff_ne_none.mp hsome⟩
    rw [hstart]
    simp
  · rename_i hheader
    have hnone : ∀ other ∈ lines, headerName? other = none := by
      intro other hother
      exact Option.not_isSome_iff_eq_none.mp fun hsome => hheader ⟨other, hother, hsome⟩
    have hstart : headerless lines = true := by
      rw [headerless, List.all_eq_true]
      intro other hother
      rw [hnone other hother]
      rfl
    have hgoverned : ¬ Governed name before := by
      rintro ⟨front, mark, between, rfl, hname, _⟩
      rw [hnone mark (hbefore (by simp))] at hname
      cases hname
    rw [or_iff_right hgoverned, and_iff_right hstart]
    refine forall₂_congr fun other hother => ?_
    rw [IsMark, hnone other (hbefore hother)]
    simp

theorem ownLine_iff (hbefore : before ⊆ lines) :
    OwnLine name lines before line ↔
      (bodyLine? line).isSome = true ∧ insideBehind name (headerless lines) before = true := by
  have hspeaks : (bodyLine? line).isSome = true ↔ headerName? line = none ∧
      isFiller (Line.trim line) = false ∧ Line.trim line ≠ endLine := by
    rw [bodyLine?]
    split
    · rename_i h
      exact iff_of_true rfl h
    · rename_i h
      exact iff_of_false (by simp) h
  have hfiller : isFiller (Line.trim line) = false ↔ Line.trim line ≠ "" ∧
      (Line.trim line).toList.head? ≠ some '!' ∧ Line.trim line ≠ "endif" := by
    simp [isFiller, and_assoc]
  rw [hspeaks, hfiller, insideBehind_headerless_iff hbefore]
  constructor
  · rintro ⟨h₁, h₂, h₃, h₄, h₅, h₆⟩
    exact ⟨⟨h₁, ⟨h₂, h₃, h₄⟩, h₅⟩, h₆⟩
  · rintro ⟨⟨h₁, ⟨h₂, h₃, h₄⟩, h₅⟩, h₆⟩
    exact ⟨h₁, h₂, h₃, h₄, h₅, h₆⟩

theorem ownLine_step (hbefore : before ⊆ lines) :
    (if insideBehind name (headerless lines) before then (bodyLine? line).toList else [])
      = if OwnLine name lines before line then [Line.trim line] else [] := by
  by_cases hown : OwnLine name lines before line
  · obtain ⟨hspeaks, hinside⟩ := (ownLine_iff hbefore).mp hown
    obtain ⟨s, hs⟩ := Option.isSome_iff_exists.mp hspeaks
    rw [if_pos hinside, if_pos hown, hs, eq_trim_of_bodyLine? hs]
    rfl
  · rw [if_neg hown]
    split
    · rename_i hinside
      have hnone : bodyLine? line = none := Option.not_isSome_iff_eq_none.mp fun hspeaks =>
        hown ((ownLine_iff hbefore).mpr ⟨hspeaks, hinside⟩)
      rw [hnone]
      rfl
    · rfl

theorem bodyFrom_eq_filter (hlines : lines = before ++ rest) :
    bodyFrom name (insideBehind name (headerless lines) before) rest
      = ((rest.zipIdx before.length).filter fun entry =>
          OwnLine name lines (lines.take entry.2) entry.1).map fun entry => Line.trim entry.1 := by
  induction rest generalizing before with
  | nil => rfl
  | cons line rest ih =>
    have hbefore : before ⊆ lines := by
      rw [hlines]
      exact List.subset_append_left before _
    have htake : lines.take before.length = before := by
      rw [hlines]
      exact List.take_left
    have hrest : lines = (before ++ [line]) ++ rest := by
      rw [hlines, List.append_assoc]
      rfl
    have ih' := ih hrest
    rw [insideBehind_concat, List.length_append, List.length_singleton] at ih'
    rw [bodyFrom_cons, ownLine_step hbefore, ih', List.zipIdx_cons, List.filter_cons, htake]
    by_cases hown : OwnLine name lines before line
    · rw [if_pos hown, if_pos (decide_eq_true hown)]
      rfl
    · rw [if_neg hown, if_neg (decide_eq_true_iff.not.mpr hown)]
      rfl

end

/-- **The body of a policy is the lines that belong to it.**  It consists of the trimmed lines, in
order, that are neither a header nor blank nor a comment nor the end of a branch or of a policy, and
that have a header of the policy as the nearest header or end before them; in a text without headers,
that have no end before them. -/
theorem bodyLines_selected (name text : String) :
    bodyLines name text = (ownLines name (Line.ofText text)).map Line.trim := by
  have hlines : Line.ofText text = [] ++ Line.ofText text := rfl
  rw [ownLines, List.map_map]
  exact bodyFrom_eq_filter hlines

example : bodyLines "A" "route-policy A\n a\n route-policy A in\nend-policy\n b\nroute-policy A\nc"
    = ["a", "route-policy A in", "c"] := by
  decide +kernel

end RoutePolicy
