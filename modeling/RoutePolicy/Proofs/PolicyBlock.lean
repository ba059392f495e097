import RoutePolicy.Facts
import RoutePolicy.Proofs.HeaderLine

/-!
# Policies fetched from a configuration

A device that holds a configuration answers the command for a policy with the block of that policy,
and the body is then read from the block.  Block and body are found by two scans that filter
differently.  Both keep one flag, whether the lines before end in the policy, and `insideAfter` says
how a line changes it; with the flag in common, a line is one step of each scan.

* `blockFrom_cons`, `bodyFrom_cons`   one line, for either scan;
* `insideBehind`, `bodyFrom_append`   a stretch of lines, and a body over two of them;
* `bodyFrom_blockFrom`                the body of the block is the body of the lines around it;
* `bodyFrom_recut`                    it does not matter that the block was joined and cut again;
* `ask_policyCommand`                 the answer to the command for a policy is its block.
-/

namespace RoutePolicy

/-! ## One line -/

section
variable (name : String) (inside : Bool) (line : String)

/-- Whether the policy goes on behind a line. -/
def insideAfter : Bool :=
  match headerName? line with
  | some header => header = name
  | none => inside && Line.trim line ≠ endLine

/-- Whether a line belongs to the block. -/
def inBlock : Bool :=
  match headerName? line with
  | some header => header = name
  | none => inside

/-- What a line says, if it is neither a header nor an end nor a filler. -/
def bodyLine? : Option String :=
  if headerName? line = none ∧ isFiller (Line.trim line) = false ∧ Line.trim line ≠ endLine then
    some (Line.trim line)
  else none

theorem isFiller_endLine : isFiller endLine = false := by
  decide +kernel

theorem blockFrom_cons (rest : List String) :
    blockFrom name inside (line :: rest)
      = (if inBlock name inside line then [line] else [])
        ++ blockFrom name (insideAfter name inside line) rest := by
  rw [blockFrom, inBlock, insideAfter]
  cases hheader : headerName? line with
  | none => cases inside <;> simp
  | some header =>
    -- a header is no end, so a block that it opens goes on
    have hend := trim_ne_endLine hheader
    by_cases hname : header = name <;> simp [hname, hend]

theorem bodyFrom_cons (rest : List String) :
    bodyFrom name inside (line :: rest)
      = (if inside then (bodyLine? line).toList else [])
        ++ bodyFrom name (insideAfter name inside line) rest := by
  rw [bodyFrom, bodyLine?, insideAfter]
  cases hheader : headerName? line with
  | some header => cases inside <;> simp
  | none =>
    by_cases hend : Line.trim line = endLine
    · cases inside <;> simp [hend, isFiller_endLine]
    · cases hfiller : isFiller (Line.trim line) <;> cases inside <;> simp [hend, hfiller]

end

theorem eq_trim_of_bodyLine? {raw line : String} (h : bodyLine? raw = some line) :
    line = Line.trim raw := by
  rw [bodyLine?] at h
  split at h
  · exact (Option.some.inj h).symm
  · cases h

theorem exists_of_mem_bodyFrom {name line : String} {inside : Bool} {lines : List String}
    (h : line ∈ bodyFrom name inside lines) : ∃ raw ∈ lines, line = Line.trim raw := by
  induction lines generalizing inside with
  | nil => cases h
  | cons raw rest ih =>
    rw [bodyFrom_cons, List.mem_append] at h
    rcases h with h | h
    · cases inside with
      | false => cases h
      | true => exact ⟨raw, List.mem_cons_self, eq_trim_of_bodyLine? (Option.mem_toList.mp h)⟩
    · obtain ⟨other, hother, hline⟩ := ih h
      exact ⟨other, List.mem_cons_of_mem _ hother, hline⟩

/-! ## Lines in a row -/

/-- Whether the policy goes on behind these lines. -/
def insideBehind (name : String) (inside : Bool) (lines : List String) : Bool :=
  lines.foldl (insideAfter name) inside

theorem insideBehind_append (name : String) (inside : Bool) (a b : List String) :
    insideBehind name inside (a ++ b) = insideBehind name (insideBehind name inside a) b :=
  List.foldl_append

theorem insideBehind_concat (name : String) (inside : Bool) (lines : List String) (line : String) :
    insideBehind name inside (lines ++ [line])
      = insideAfter name (insideBehind name inside lines) line :=
  insideBehind_append name inside lines [line]

theorem bodyFrom_append (name : String) (inside : Bool) (a b : List String) :
    bodyFrom name inside (a ++ b)
      = bodyFrom name inside a ++ bodyFrom name (insideBehind name inside a) b := by
  induction a generalizing inside with
  | nil => rfl
  | cons line a ih =>
    rw [List.cons_append, bodyFrom_cons, bodyFrom_cons, ih, List.append_assoc]
    rfl

/-! ## The two scans in step -/

theorem mem_of_mem_blockFrom {name : String} {inside : Bool} {lines : List String} {line : String}
    (h : line ∈ blockFrom name inside lines) : line ∈ lines := by
  induction lines generalizing inside with
  | nil => exact h
  | cons first rest ih =>
    rw [blockFrom_cons] at h
    rcases List.mem_append.mp h with h | h
    · split at h
      · rw [List.mem_singleton.mp h]
        exact List.mem_cons_self
      · cases h
    · exact List.mem_cons_of_mem _ (ih h)

theorem blockFrom_ne_nil {name : String} {lines : List String}
    (h : ∃ line ∈ lines, headerName? line = some name) (inside : Bool) :
    blockFrom name inside lines ≠ [] := by
  induction lines generalizing inside with
  | nil =>
    obtain ⟨line, hmem, _⟩ := h
    cases hmem
  | cons first rest ih =>
    rw [blockFrom_cons]
    obtain ⟨line, hmem, hline⟩ := h
    rcases List.mem_cons.mp hmem with rfl | hmem
    · have hin : inBlock name inside line = true := by simp [inBlock, hline]
      rw [if_pos hin]
      exact List.cons_ne_nil _ _
    · exact List.append_ne_nil_of_right_ne_nil _ (ih ⟨line, hmem, hline⟩ _)

/-- The body of a block is the body of the lines that the block was taken from.  Where no block is
open, the scan of the body may start in either state: the next line that it sees is a header. -/
theorem bodyFrom_blockFrom {name : String} {inside flag : Bool} (hflag : inside = true → flag = true)
    (lines : List String) :
    bodyFrom name flag (blockFrom name inside lines) = bodyFrom name inside lines := by
  induction lines generalizing inside flag with
  | nil => rfl
  | cons line rest ih =>
    rw [blockFrom_cons, bodyFrom_cons]
    cases hheader : headerName? line with
    | none =>
      cases inside with
      | false =>
        have hin : inBlock name false line = false := by simp [inBlock, hheader]
        have hafter : insideAfter name false line = false := by simp [insideAfter, hheader]
        rw [hin, hafter]
        exact ih (fun h => absurd h (by simp))
      | true =>
        have hin : inBlock name true line = true := by simp [inBlock, hheader]
        rw [hin, hflag rfl, if_pos rfl, List.singleton_append, bodyFrom_cons]
        exact congrArg _ (ih id)
    | some header =>
      have hbody : bodyLine? line = none := by simp [bodyLine?, hheader]
      have hafter : ∀ b, insideAfter name b line = decide (header = name) := by
        intro b
        simp [insideAfter, hheader]
      have hin : inBlock name inside line = decide (header = name) := by simp [inBlock, hheader]
      rw [hin, hafter, hbody]
      by_cases hname : header = name
      · rw [decide_eq_true hname, if_pos rfl, List.singleton_append, bodyFrom_cons, hafter,
          decide_eq_true hname, hbody, ih id]
        cases flag <;> cases inside <;> rfl
      · rw [decide_eq_false hname]
        have hrest : bodyFrom name flag (blockFrom name false rest) = bodyFrom name false rest :=
          ih (fun h => absurd h (by simp))
        cases inside <;> exact hrest

/-! ## Blocks joined and cut again -/

theorem bodyLine?_dropReturn (line : String) :
    bodyLine? (Line.dropReturn line) = bodyLine? line := by
  rw [bodyLine?, headerName?_dropReturn, Line.trim_dropReturn, bodyLine?]

theorem insideAfter_dropReturn (name : String) (inside : Bool) (line : String) :
    insideAfter name inside (Line.dropReturn line) = insideAfter name inside line := by
  rw [insideAfter, headerName?_dropReturn, Line.trim_dropReturn, insideAfter]

theorem bodyFrom_recut (name : String) (inside : Bool) (lines : List String) :
    bodyFrom name inside (Line.recut lines) = bodyFrom name inside lines := by
  fun_induction Line.recut lines generalizing inside with
  | case1 => rfl
  | case2 =>
    -- the empty line says nothing
    have hempty : bodyLine? "" = none := by decide +kernel
    rw [bodyFrom_cons, hempty]
    cases inside <;> rfl
  | case3 => rfl
  | case4 line next rest ih =>
    rw [bodyFrom_cons, bodyLine?_dropReturn, insideAfter_dropReturn, ih, ← bodyFrom_cons]

/-! ## The answer of the device -/

theorem commandPolicy?_policyCommand {name : String} (h : Form.plain.Accepts name.toList) :
    commandPolicy? (policyCommand name) = some name := by
  have hsolid : ∀ c ∈ name.toList, Text.isBlank c = false := by
    intro c hc
    have hchar := h.2 c hc
    simp only [Pattern.isNameChar, Form.isSolid, Bool.and_eq_true, Bool.not_eq_true'] at hchar
    exact hchar.1
  have hcommand : (policyCommand name).toList
      = policyCommandWords.toList ++ ' ' :: name.toList := by
    simp [policyCommand]
  rw [commandPolicy?, hcommand, Pattern.afterText_append]
  simp only [Text.trim_cons_blank Text.isBlank_space, Text.trim_of_solid hsolid]
  rw [if_neg h.1, String.ofList_toList]

theorem policyCommand_ne_namesCommand (name : String) : policyCommand name ≠ namesCommand := by
  intro h
  have hcommand : (policyCommand name).toList.take 21 = policyCommandWords.toList.take 21 := by
    rw [policyCommand, String.toList_append, String.toList_append, List.append_assoc,
      List.take_append_of_le_length (by decide)]
  rw [h] at hcommand
  exact absurd hcommand (by decide)

section
variable {config name : String} (h : ∃ line ∈ Line.ofText config, headerName? line = some name)
include h

theorem ask_policyCommand :
    (Device.runningConfig config).ask (policyCommand name) ()
      = (.ok (Line.join (policyBlock name config)), ()) := by
  have hblock : policyBlock name config ≠ [] := blockFrom_ne_nil h false
  obtain ⟨first, rest, hcons⟩ := List.exists_cons_of_ne_nil hblock
  obtain ⟨line, _, hline⟩ := h
  show (configAnswer config (policyCommand name), ()) = _
  rw [configAnswer, if_neg (policyCommand_ne_namesCommand name),
    commandPolicy?_policyCommand (accepts_of_headerName? hline)]
  simp only [hcons]

theorem bodyLines_policyBlock :
    bodyLines name (Line.join (policyBlock name config)) = bodyLines name config := by
  have hlines : ∀ line ∈ policyBlock name config, '\n' ∉ line.toList := fun line hline =>
    Line.newline_not_mem_of_mem_ofText (mem_of_mem_blockFrom hline)
  have hheader : ((Line.ofText config).all fun line => (headerName? line).isNone) = false := by
    obtain ⟨line, hmem, hline⟩ := h
    rw [List.all_eq_false]
    exact ⟨line, hmem, by simp [hline]⟩
  rw [bodyLines, Line.ofText_join hlines, bodyFrom_recut, bodyLines, hheader, policyBlock]
  exact bodyFrom_blockFrom (fun hfalse => absurd hfalse (by simp)) _

theorem trace_policyBlock (strict : Bool) :
    trace strict name (Line.join (policyBlock name config)) = trace strict name config := by
  rw [trace, bodyLines_policyBlock h, trace]

/-- **A policy can be read from its block or from the whole text.**  For every name that a header
of the configuration opens, the device answers the command for the policy, the block that it sends
has the same body as the configuration, and so everything that is made of the policy is the same. -/
theorem fetched_eq_whole :
    ∃ block, (Device.runningConfig config).ask (policyCommand name) () = (.ok block, ()) ∧
      bodyLines name block = bodyLines name config ∧
      ∀ strict, trace strict name block = trace strict name config :=
  ⟨Line.join (policyBlock name config), ask_policyCommand h, bodyLines_policyBlock h,
    trace_policyBlock h⟩

end

/-- Two blocks of `A`: the first one with doubled carriage returns and a line behind its end, the
second one without an end and with an attachment in it. -/
def twoBlocks : String :=
  "pass\nroute-policy A\r\r\n\r\r\n if med eq 1 then\r\n  drop\r\n endif\nend-policy\n drop\n"
    ++ "route-policy B(x)\n set med 1\nroute-policy A ($x)\n route-policy A in\n set tag 7\n"
    ++ "route-policy A\n set tag 8\n route-policy A in\n!\n\n"

theorem fetched_twoBlocks :
    (∃ line ∈ Line.ofText twoBlocks, headerName? line = some "A") ∧
    ∃ block, (Device.runningConfig twoBlocks).ask (policyCommand "A") () = (.ok block, ()) ∧
      bodyLines "A" block = bodyLines "A" twoBlocks ∧
      ∀ strict, trace strict "A" block = trace strict "A" twoBlocks := by
  have h : ∃ line ∈ Line.ofText twoBlocks, headerName? line = some "A" := by decide +kernel
  exact ⟨h, fetched_eq_whole h⟩

end RoutePolicy
