import Mathlib.Data.List.Basic
import RoutePolicy.Proofs.Row

/-!
# Configurations under each other

Two configurations that open different policies can be put under each other: each policy is read as
from its own configuration, whatever stands in the other one.  The one thing that crosses the seam
is a policy that the first text leaves open, so the first text closes its last policy (`Closed`), or
the second one starts with a header.

* `insideBehind_closed`                   no policy is open behind closed lines;
* `bodyLines_first`, `bodyLines_second`   a body in the joined text is that in its own text;
* `configTraces_joined`                   policies and facts of the joined text.
-/

namespace RoutePolicy

/-! ## The state behind other policies -/

theorem insideBehind_recut (name : String) (inside : Bool) (lines : List String) :
    insideBehind name inside (Line.recut lines) = insideBehind name inside lines := by
  fun_induction Line.recut lines generalizing inside with
  | case1 => rfl
  | case2 =>
    show inside = insideAfter name inside ""
    have hend : Line.trim "" ≠ endLine := by decide
    simp [insideAfter, headerName?_empty, hend]
  | case3 => rfl
  | case4 line next rest ih =>
    show insideBehind name (insideAfter name inside (Line.dropReturn line)) _ = _
    rw [insideAfter_dropReturn, ih]
    rfl

theorem head?_recut (lines : List String) :
    (Line.recut lines).head?.bind headerName? = lines.head?.bind headerName? := by
  fun_cases Line.recut lines with
  | case1 => rfl
  | case2 => exact headerName?_empty.symm
  | case3 => rfl
  | case4 line next rest => exact headerName?_dropReturn line

/-- A line that is no header of this name does not open the policy. -/
theorem insideAfter_foreign {name line : String} (h : headerName? line ≠ some name) :
    insideAfter name false line = false := by
  rw [insideAfter]
  cases hheader : headerName? line with
  | none => rfl
  | some header =>
    rw [hheader] at h
    exact decide_eq_false fun heq => h (congrArg some heq)

section
variable {name : String} {lines : List String} (h : ∀ line ∈ lines, headerName? line ≠ some name)
include h

theorem insideBehind_foreign : insideBehind name false lines = false := by
  induction lines with
  | nil => rfl
  | cons line lines ih =>
    obtain ⟨hline, hlines⟩ := List.forall_mem_cons.mp h
    show insideBehind name (insideAfter name false line) lines = false
    rw [insideAfter_foreign hline, ih hlines]

theorem bodyFrom_foreign : bodyFrom name false lines = [] := by
  induction lines with
  | nil => rfl
  | cons line lines ih =>
    obtain ⟨hline, hlines⟩ := List.forall_mem_cons.mp h
    rw [bodyFrom_cons, insideAfter_foreign hline, ih hlines]
    rfl

/-- Nor do lines without such a header go on with it, if they start with a header. -/
theorem bodyFrom_foreign_of_header {header : String}
    (hhead : lines.head?.bind headerName? = some header) (inside : Bool) :
    bodyFrom name inside lines = [] := by
  obtain ⟨line, hfirst, hheader⟩ := Option.bind_eq_some_iff.mp hhead
  obtain ⟨rest, rfl⟩ := List.head?_eq_some_iff.mp hfirst
  have hbody : bodyLine? line = none := by simp [bodyLine?, hheader]
  -- behind a header it is forgotten what was open
  have hforget : insideAfter name inside line = insideAfter name false line := by
    simp [insideAfter, hheader]
  have hfalse := bodyFrom_foreign h
  rw [bodyFrom_cons, hbody] at hfalse ⊢
  rw [hforget]
  cases inside <;> exact hfalse

end

/-! ## The seam -/

/-- There is no header in these lines, or an end behind the last one. -/
def Closed (lines : List String) : Prop :=
  (∀ line ∈ lines, headerName? line = none) ∨
    ∃ before last after, lines = before ++ last :: after ∧ Line.trim last = endLine ∧
      ∀ line ∈ after, headerName? line = none

theorem insideBehind_closed {lines : List String} (h : Closed lines) (name : String) :
    insideBehind name false lines = false := by
  have hnone : ∀ {ls : List String}, (∀ line ∈ ls, headerName? line = none) →
      ∀ line ∈ ls, headerName? line ≠ some name := by
    intro ls hls line hline
    rw [hls line hline]
    nofun
  rcases h with h | ⟨before, last, after, rfl, hend, hafter⟩
  · exact insideBehind_foreign (hnone h)
  · have hlast : headerName? last = none :=
      Option.eq_none_iff_forall_ne_some.mpr fun header hheader => trim_ne_endLine hheader hend
    have hclosed : ∀ inside, insideAfter name inside last = false := by
      intro inside
      simp [insideAfter, hlast, hend]
    rw [insideBehind_append]
    show insideBehind name (insideAfter name _ last) after = false
    rw [hclosed, insideBehind_foreign (hnone hafter)]

/-- No policy of the first text goes on in the second. -/
def Separable (first second : String) : Prop :=
  Closed (Line.ofText first) ∨ ((Line.ofText second).head?.bind headerName?).isSome = true

/-! ## Bodies in the joined text -/

section
variable {first second name : String}

theorem policyNames_joined (first second : String) :
    policyNames (first ++ "\n" ++ second) = policyNames first ++ policyNames second := by
  simp only [policyNames_eq_rows, Line.rows_append, List.filterMap_append]

theorem foreign_of_not_mem {text : String} (h : name ∉ policyNames text) :
    ∀ row ∈ Line.rows text, headerName? row ≠ some name := by
  intro row hrow hheader
  rw [policyNames_eq_rows] at h
  exact h (List.mem_filterMap.mpr ⟨row, hrow, hheader⟩)

/-- Where a policy is opened, its body starts at a header. -/
theorem bodyLines_of_mem {text : String} (h : name ∈ policyNames text) :
    bodyLines name text = bodyFrom name false (Line.rows text) := by
  rw [bodyLines_eq_rows, List.isEmpty_eq_false_iff.mpr (List.ne_nil_of_mem h)]

theorem bodyLines_joined (h : name ∈ policyNames first ++ policyNames second) :
    bodyLines name (first ++ "\n" ++ second) = bodyFrom name false (Line.rows first)
      ++ bodyFrom name (insideBehind name false (Line.rows first)) (Line.rows second) := by
  rw [← policyNames_joined] at h
  rw [bodyLines_of_mem h, Line.rows_append, bodyFrom_append]

theorem bodyLines_first (hseam : Separable first second) (hname : name ∈ policyNames first)
    (hother : name ∉ policyNames second) :
    bodyLines name (first ++ "\n" ++ second) = bodyLines name first := by
  have hforeign := foreign_of_not_mem hother
  have hsecond : bodyFrom name (insideBehind name false (Line.rows first)) (Line.rows second)
      = [] := by
    rcases hseam with hclosed | hheader
    · have hstate := insideBehind_closed hclosed name
      rw [Line.ofText_eq_recut, insideBehind_recut] at hstate
      rw [hstate]
      exact bodyFrom_foreign hforeign
    · obtain ⟨header, hhead⟩ := Option.isSome_iff_exists.mp hheader
      rw [Line.ofText_eq_recut, head?_recut] at hhead
      exact bodyFrom_foreign_of_header hforeign hhead _
  rw [bodyLines_joined (List.mem_append_left _ hname), hsecond, List.append_nil,
    bodyLines_of_mem hname]

theorem bodyLines_second (hname : name ∈ policyNames second) (hother : name ∉ policyNames first) :
    bodyLines name (first ++ "\n" ++ second) = bodyLines name second := by
  have hforeign := foreign_of_not_mem hother
  rw [bodyLines_joined (List.mem_append_right _ hname), bodyFrom_foreign hforeign,
    insideBehind_foreign hforeign, List.nil_append, bodyLines_of_mem hname]

end

/-! ## Policies and facts of the joined text -/

theorem mapM_congr_mem {α β ε : Type} {f g : α → Except ε β} {as : List α}
    (h : ∀ a ∈ as, f a = g a) : as.mapM f = as.mapM g := by
  induction as with
  | nil => rfl
  | cons a as ih =>
    rw [List.mapM_cons, List.mapM_cons, h a List.mem_cons_self,
      ih fun b hb => h b (List.mem_cons_of_mem _ hb)]

/-- **Configurations compose.**  If two texts open different policies and none is left open at the
seam, the policies of the joined text are those of the first and then those of the second, each read
and counted as in its own text, up to the first error; and the facts are those of both. -/
theorem configTraces_joined {first second : String}
    (hnames : (policyNames first).Disjoint (policyNames second)) (hseam : Separable first second)
    (strict : Bool) :
    configTraces strict (first ++ "\n" ++ second)
      = (configTraces strict first).bind (fun traces =>
          (configTraces strict second).map (traces ++ ·)) ∧
    ∀ facts more, configFacts strict first = .ok facts → configFacts strict second = .ok more →
      configFacts strict (first ++ "\n" ++ second) = .ok (facts ++ more) := by
  have hfirst : ∀ name ∈ policyNames first,
      trace strict name (first ++ "\n" ++ second) = trace strict name first := by
    intro name hname
    rw [trace, bodyLines_first hseam hname (hnames hname), trace]
  have hsecond : ∀ name ∈ policyNames second,
      trace strict name (first ++ "\n" ++ second) = trace strict name second := by
    intro name hname
    rw [trace, bodyLines_second hname fun h => hnames h hname, trace]
  have htraces : configTraces strict (first ++ "\n" ++ second)
      = (configTraces strict first).bind (fun traces =>
          (configTraces strict second).map (traces ++ ·)) := by
    simp only [configTraces_eq, policyNames_joined, List.mapM_append, mapM_congr_mem hfirst,
      mapM_congr_mem hsecond]
    rfl
  refine ⟨htraces, fun facts more hfacts hmore => ?_⟩
  rw [configFacts_eq] at hfacts hmore ⊢
  rw [htraces]
  cases ha : configTraces strict first with
  | error e =>
    rw [ha] at hfacts
    cases hfacts
  | ok a =>
    cases hb : configTraces strict second with
    | error e =>
      rw [hb] at hmore
      cases hmore
    | ok b =>
      rw [ha] at hfacts
      rw [hb] at hmore
      show finish ((a ++ b).map Trace.document) = .ok (facts ++ more)
      rw [List.map_append, finish_append_ok]
      exact ⟨facts, more, hfacts, hmore, rfl⟩

/-- Two policies, the last one closed, and a line behind it without a line end. -/
def upperConfig : String :=
  "pass\nroute-policy A\n set tag 7\nroute-policy B\n else\n drop\nend-policy\n drop\r"

/-- A line that belongs to no policy, and a policy. -/
def lowerConfig : String :=
  " set tag 8\nroute-policy C($x)\n pass\n"

theorem configTraces_upperLower :
    policyNames upperConfig = ["A", "B"] ∧ policyNames lowerConfig = ["C"] ∧
    Separable upperConfig lowerConfig ∧
    configTraces true (upperConfig ++ "\n" ++ lowerConfig) = .error (.strayBranch ⟨1, "else"⟩) ∧
    configFacts false (upperConfig ++ "\n" ++ lowerConfig) = .ok
      [.dict [("name", .str "A"), ("global", .dict [("set", .dict [("tag", .ofNat 7)])])],
        .dict [("name", .str "B"), ("else", .dict [("global", .dict [("drop", .bool true)])])],
        .dict [("name", .str "C"), ("global", .dict [("pass", .bool true)])]] := by
  have hupper : policyNames upperConfig = ["A", "B"] := by decide +kernel
  have hlower : policyNames lowerConfig = ["C"] := by decide +kernel
  have hnames : (policyNames upperConfig).Disjoint (policyNames lowerConfig) := by
    rw [hupper, hlower, List.disjoint_left]
    decide
  have hlines : Line.ofText upperConfig = ["pass", "route-policy A", " set tag 7", "route-policy B",
      " else", " drop"] ++ "end-policy" :: [" drop\r"] := by decide +kernel
  have hseam : Separable upperConfig lowerConfig :=
    .inl (.inr ⟨_, "end-policy", [" drop\r"], hlines, by decide +kernel, by decide +kernel⟩)
  have hstray : configTraces true upperConfig = .error (.strayBranch ⟨1, "else"⟩) := by
    rw [configTraces_eq, hupper]
    decide +kernel
  refine ⟨hupper, hlower, hseam, ?_, ?_⟩
  · rw [(configTraces_joined hnames hseam true).1, hstray]
    rfl
  · refine (configTraces_joined hnames hseam false).2 [_, _] [_] ?_ ?_
    · rw [configFacts_eq, configTraces_eq, hupper]
      decide +kernel
    · rw [configFacts_eq, configTraces_eq, hlower]
      decide +kernel

end RoutePolicy
