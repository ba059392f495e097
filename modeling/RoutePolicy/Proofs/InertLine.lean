import RoutePolicy.Document.Tally
import RoutePolicy.Proofs.StrayBranch

/-!
# Lines that no rule reads

A line that neither shapes the body nor is a statement leaves no trace in the document: it can
stand anywhere, on any level, and only the list of unrecognised lines shows it.

Two views of a body carry this.  `Scope.heard` keeps the statements that a rule reads.  It commutes
with the cut of a body into scopes (`heard_ofLines`), and the document does not see it
(`resolve_heard`).  And the events of a body are the events of its lines, one line after the other
(`events_ofLines`), whatever branch or level a line went to.
-/

namespace RoutePolicy

/-! ## Statements that a rule reads -/

def isHeard (line : String) : Bool :=
  (recognize LineClass.isStatement line).isSome

/-- lines that have a say in the document -/
def matters (line : String) : Bool :=
  (boundary? line).isSome || isHeard line

theorem isHeard_trim (line : String) : isHeard (Line.trim line) = isHeard line := by
  rw [isHeard, recognize_trim, isHeard]

theorem foldStatements_heard (lines : List String) :
    foldStatements (lines.filter isHeard) = foldStatements lines := by
  unfold foldStatements
  rw [List.foldl_filter]
  congr 1
  funext acc line
  unfold isHeard
  cases recognize LineClass.isStatement line <;> rfl

def Branch.heard (b : Branch) : Branch :=
  { b with statements := b.statements.filter isHeard }

def Level.heard (l : Level) : Level :=
  { globals := l.globals.filter isHeard, branches := l.branches.map Branch.heard }

/-- the scope without the statements that no rule reads -/
def Scope.heard : Scope → Scope
  | .last level => .last level.heard
  | .orElse level other => .orElse level.heard other.heard

/-! ## The document does not see them -/

theorem Branch.block_heard (b : Branch) : b.heard.block = b.block := by
  show Value.merge _ (foldStatements (b.statements.filter isHeard)) = b.block
  rw [foldStatements_heard]
  rfl

namespace Level

theorem ifBranch?_heard (l : Level) : l.heard.ifBranch? = l.ifBranch?.map Branch.heard := by
  show (l.branches.map Branch.heard).find? _ = _
  rw [List.find?_map]
  rfl

theorem otherBranches_heard (l : Level) :
    l.heard.otherBranches = l.otherBranches.map Branch.heard := by
  show (l.branches.map Branch.heard).eraseP _ = _
  rw [List.eraseP_map]
  rfl

theorem resolve_heard (l : Level) : l.heard.resolve = l.resolve := by
  have hglobals : foldStatements l.heard.globals = foldStatements l.globals :=
    foldStatements_heard l.globals
  have hothers : (l.heard.otherBranches.map fun b => Value.dict b.block)
      = l.otherBranches.map fun b => Value.dict b.block := by
    rw [otherBranches_heard, List.map_map]
    exact List.map_congr_left fun b _ => congrArg Value.dict b.block_heard
  have hif : (l.heard.ifBranch?.toList.map fun b => ("if", Value.dict b.block))
      = l.ifBranch?.toList.map fun b => ("if", Value.dict b.block) := by
    rw [ifBranch?_heard]
    cases l.ifBranch? with
    | none => rfl
    | some b => simp [b.block_heard]
  simp only [resolve, hglobals, hothers, hif]

end Level

namespace Scope

theorem resolve_heard (s : Scope) : s.heard.resolve = s.resolve := by
  induction s with
  | last l => exact l.resolve_heard
  | orElse l other ih =>
    show l.heard.resolve ++ _ = l.resolve ++ _
    rw [l.resolve_heard, ih]

theorem allBranches_heard (s : Scope) : s.heard.allBranches = s.allBranches.map Branch.heard := by
  induction s with
  | last l =>
    show l.branches.map Branch.heard ++ [] = (l.branches ++ []).map Branch.heard
    rw [List.append_nil, List.append_nil]
  | orElse l other ih =>
    show l.branches.map Branch.heard ++ other.heard.allBranches
      = (l.branches ++ other.allBranches).map Branch.heard
    rw [ih, List.map_append]

/-- A branch is incomplete by its condition alone. -/
theorem incomplete_heard (s : Scope) (n : Nat) :
    (Tally.ofScope n s.heard).incomplete = (Tally.ofScope n s).incomplete := by
  show ((s.heard.allBranches.filter Branch.isIncomplete).map Branch.line).eraseDups = _
  rw [allBranches_heard, List.filter_map, List.map_map]
  rfl

/-! ## They can be left out before the cut -/

theorem heard_mapLevel {s : Scope} {f g : Level → Level} (h : (f s.level).heard = g s.level.heard) :
    (s.mapLevel f).heard = s.heard.mapLevel g := by
  cases s with
  | last l => exact congrArg Scope.last h
  | orElse l other => exact congrArg (Scope.orElse · other.heard) h

theorem heard_addLine (s : Scope) (line : String) :
    (s.addLine line).heard = if matters line then s.heard.addLine line else s.heard := by
  unfold addLine matters
  cases hline : boundary? line with
  | none =>
    by_cases hheard : isHeard line = true
    · rw [if_pos (by simp [hheard])]
      apply heard_mapLevel
      simp [Level.heard, hheard]
    · rw [if_neg (by simp [hheard])]
      have hself : s.heard = s.heard.mapLevel fun l => l := (mapLevel_self rfl).symm
      rw [hself]
      apply heard_mapLevel
      simp [Level.heard, hheard]
  | some b =>
    rw [if_pos (by simp)]
    cases b with
    | branch kind condition => exact heard_mapLevel rfl
    | otherwise => rfl

theorem heard_ofLines (lines : List String) :
    (ofLines lines).heard = ofLines (lines.filter matters) := by
  have htrim : ∀ line, matters (Line.trim line) = matters line := by
    intro line
    rw [matters, boundary?_trim, isHeard_trim, matters]
  induction lines with
  | nil => rfl
  | cons line rest ih =>
    rw [ofLines_cons, heard_addLine, htrim, ih]
    by_cases hline : matters line = true
    · rw [if_pos hline, List.filter_cons_of_pos hline, ofLines_cons]
    · rw [if_neg hline, List.filter_cons_of_neg hline]

end Scope

/-! ## Events, line by line -/

/-- what the rules make of one body line -/
def lineEvents (line : String) : List Event :=
  match boundary? line with
  | none => [Event.ofText LineClass.isStatement (Line.trim line)]
  | some (.branch _ condition) => (clauses condition).map (Event.ofText (· = .condition))
  | some .otherwise => []

/-- the lines before the other branches become the statements of a branch put in front of them -/
theorem Level.events_addBranch {l : Level} {b : Branch} (h : b.statements = l.globals) :
    ({ branches := b :: l.branches } : Level).events = b.clauseEvents ++ l.events := by
  simp only [Level.events, Branch.events, h, statementEvents, List.map_nil, List.nil_append,
    List.flatMap_cons, List.append_assoc]

namespace Scope

/-- What a change of the top level puts in front of that level, it puts in front of all levels. -/
theorem flatMap_mapLevel {α : Type} {g : Level → List α} {s : Scope} {f : Level → Level}
    (front : List α) (hf : g (f s.level) = front ++ g s.level) :
    (s.mapLevel f).levels.flatMap g = front ++ s.levels.flatMap g := by
  cases s with
  | last l =>
    show g (f l) ++ [] = front ++ (g l ++ [])
    rw [show g (f l) = front ++ g l from hf, List.append_assoc]
  | orElse l other =>
    show g (f l) ++ other.levels.flatMap g = front ++ (g l ++ other.levels.flatMap g)
    rw [show g (f l) = front ++ g l from hf, List.append_assoc]

theorem events_addLine (s : Scope) (line : String) :
    (s.addLine (Line.trim line)).events = lineEvents line ++ s.events := by
  rw [addLine, boundary?_trim, lineEvents]
  cases hline : boundary? line with
  | none => exact flatMap_mapLevel [_] rfl
  | some b =>
    cases b with
    | branch kind condition => exact flatMap_mapLevel _ (Level.events_addBranch rfl)
    | otherwise => rfl

theorem events_ofLines (lines : List String) :
    (ofLines lines).events = lines.flatMap lineEvents := by
  induction lines with
  | nil => rfl
  | cons line rest ih => rw [ofLines_cons, events_addLine, ih, List.flatMap_cons]

theorem events_ofLines_append (before after : List String) :
    (ofLines (before ++ after)).events = (ofLines before).events ++ (ofLines after).events := by
  rw [events_ofLines, List.flatMap_append, ← events_ofLines, ← events_ofLines]

end Scope

/-! ## A line put into a body -/

theorem isSome_firstStray_cons {a b : List String} {n m : Nat} (first : String)
    (h : ∀ opened, (firstStray opened (n + 1) a).isSome = (firstStray opened (m + 1) b).isSome)
    (opened : Bool) :
    (firstStray opened n (first :: a)).isSome = (firstStray opened m (first :: b)).isSome := by
  by_cases hstray : ContinuesBranch first ∧ opened = false
  · obtain ⟨hcontinues, rfl⟩ := hstray
    rw [firstStray_cons_of_stray hcontinues, firstStray_cons_of_stray hcontinues]
    rfl
  · rw [firstStray_cons_of_not_stray hstray, firstStray_cons_of_not_stray hstray]
    exact h _

theorem isSome_firstStray_number (lines : List String) (opened : Bool) (n m : Nat) :
    (firstStray opened n lines).isSome = (firstStray opened m lines).isSome := by
  induction lines generalizing opened n m with
  | nil => rfl
  | cons first rest ih => exact isSome_firstStray_cons first (fun opened => ih opened _ _) opened

theorem isSome_firstStray_insert {line : String} (hline : boundary? line = none)
    (before after : List String) (opened : Bool) (n m : Nat) :
    (firstStray opened n (before ++ line :: after)).isSome
      = (firstStray opened m (before ++ after)).isSome := by
  induction before generalizing opened n m with
  | nil =>
    show (firstStray opened n (line :: after)).isSome = (firstStray opened m after).isSome
    rw [firstStray_cons, hline]
    exact isSome_firstStray_number after opened (n + 1) m
  | cons first before ih => exact isSome_firstStray_cons first (fun opened => ih opened _ _) opened

theorem strict_refuses_iff (lines : List String) :
    (∃ stray, segment true lines = .error stray) ↔ (firstStray false 1 lines).isSome = true := by
  rw [Option.isSome_iff_exists]
  exact exists_congr fun stray => segment_strict_eq_error_iff

section
variable {line : String} (hboundary : boundary? line = none)
  (hstatement : recognize LineClass.isStatement line = none)
include hboundary hstatement

theorem filter_matters_insert (before after : List String) :
    (before ++ line :: after).filter matters = (before ++ after).filter matters := by
  have hline : ¬ matters line = true := by simp [matters, isHeard, hboundary, hstatement]
  rw [List.filter_append, List.filter_cons_of_neg hline, List.filter_append]

theorem lineEvents_inert : lineEvents line = [.miss (Line.trim line)] := by
  rw [lineEvents, hboundary]
  show [Event.ofText LineClass.isStatement (Line.trim line)] = _
  rw [Event.ofText, recognize_trim, hstatement]

theorem events_insert (before after : List String) :
    (Scope.ofLines (before ++ line :: after)).events
      = (Scope.ofLines before).events
        ++ .miss (Line.trim line) :: (Scope.ofLines after).events := by
  rw [Scope.events_ofLines_append, Scope.ofLines_cons, Scope.events_addLine,
    lineEvents_inert hboundary hstatement]
  rfl

theorem resolve_insert (before after : List String) :
    (Scope.ofLines (before ++ line :: after)).resolve
      = (Scope.ofLines (before ++ after)).resolve := by
  rw [← Scope.resolve_heard, Scope.heard_ofLines, filter_matters_insert hboundary hstatement,
    ← Scope.heard_ofLines, Scope.resolve_heard]

theorem incomplete_insert (n : Nat) (before after : List String) :
    (Tally.ofScope n (Scope.ofLines (before ++ line :: after))).incomplete
      = (Tally.ofScope n (Scope.ofLines (before ++ after))).incomplete := by
  rw [← Scope.incomplete_heard, Scope.heard_ofLines, filter_matters_insert hboundary hstatement,
    ← Scope.heard_ofLines, Scope.incomplete_heard]

end

/-- **Unrecognised statements are inert.**  A line that is no boundary and that no statement rule
reads, put anywhere into a body, leaves the document as it was, entry by entry.  The tally gains the
trimmed line among the unrecognised texts, behind those of the lines before it and before those of
the lines behind it, and is the same otherwise; the number of lines `n` is handed to a tally and not
counted by it.  The strict reading refuses the longer body exactly when it refuses the shorter
one. -/
theorem unrecognized_statement_inert {line : String} (hboundary : boundary? line = none)
    (hstatement : recognize LineClass.isStatement line = none) (name : String) (n : Nat)
    (before after : List String) :
    ∃ longer shorter, segment false (before ++ line :: after) = .ok longer ∧
      segment false (before ++ after) = .ok shorter ∧
      document name longer = document name shorter ∧
      (∃ missedBefore missedAfter,
        missedBefore = (Tally.ofScope n (Scope.ofLines before)).unrecognized ∧
        missedAfter = (Tally.ofScope n (Scope.ofLines after)).unrecognized ∧
        (Tally.ofScope n shorter).unrecognized = missedBefore ++ missedAfter ∧
        Tally.ofScope n longer = { Tally.ofScope n shorter with
          unrecognized := missedBefore ++ Line.trim line :: missedAfter }) ∧
      ((∃ stray, segment true (before ++ line :: after) = .error stray) ↔
        ∃ stray, segment true (before ++ after) = .error stray) := by
  refine ⟨_, _, segment_lenient _, segment_lenient _, ?_, ⟨_, _, rfl, rfl, ?_, ?_⟩, ?_⟩
  · rw [document, resolve_insert hboundary hstatement, document]
  · show (Scope.ofLines (before ++ after)).events.filterMap Event.missed? = _
    rw [Scope.events_ofLines_append, List.filterMap_append]
    rfl
  · have hincomplete := incomplete_insert hboundary hstatement n before after
    have hevents := events_insert hboundary hstatement before after
    have hhits : (Scope.ofLines (before ++ line :: after)).events.filterMap Event.rule?
        = (Scope.ofLines (before ++ after)).events.filterMap Event.rule? := by
      rw [hevents, Scope.events_ofLines_append, List.filterMap_append, List.filterMap_append]
      rfl
    have hmissed : (Scope.ofLines (before ++ line :: after)).events.filterMap Event.missed?
        = (Scope.ofLines before).events.filterMap Event.missed?
          ++ Line.trim line :: (Scope.ofLines after).events.filterMap Event.missed? := by
      rw [hevents, List.filterMap_append]
      rfl
    show Tally.mk n (countAll _) _ (Tally.ofScope n _).incomplete = _
    rw [hhits, hmissed, hincomplete]
    rfl
  · rw [strict_refuses_iff, strict_refuses_iff, isSome_firstStray_insert hboundary before after]

/-- An `if` without a condition, between the statements of a branch on the lower level. -/
theorem unrecognized_statement_inert_bareIf :
    boundary? "  if\t" = none ∧ recognize LineClass.isStatement "  if\t" = none ∧
    ∃ longer shorter,
      segment false (["mystery", "if med eq 1 then", "else", "if not tag eq 2 then", "pass"]
        ++ "  if\t" :: ["set weight 5", "route-policy X", "elseif tag eq 3 then", "drop"])
          = .ok longer ∧
      segment false (["mystery", "if med eq 1 then", "else", "if not tag eq 2 then", "pass"]
        ++ ["set weight 5", "route-policy X", "elseif tag eq 3 then", "drop"]) = .ok shorter ∧
      document "P" longer = document "P" shorter ∧
      (Tally.ofScope 9 longer).unrecognized
        = ["mystery", "not tag eq 2"] ++ "if" :: ["route-policy X"] ∧
      (Tally.ofScope 9 longer).hits = (Tally.ofScope 9 shorter).hits := by
  have hboundary : boundary? "  if\t" = none := by decide +kernel
  have hstatement : recognize LineClass.isStatement "  if\t" = none := by decide +kernel
  obtain ⟨longer, shorter, hlonger, hshorter, hdocument,
    ⟨before, after, hbefore, hafter, _, htally⟩, _⟩ :=
    unrecognized_statement_inert hboundary hstatement "P" 9
      ["mystery", "if med eq 1 then", "else", "if not tag eq 2 then", "pass"]
      ["set weight 5", "route-policy X", "elseif tag eq 3 then", "drop"]
  refine ⟨hboundary, hstatement, longer, shorter, hlonger, hshorter, hdocument, ?_, ?_⟩
  · rw [htally, hbefore, hafter]
    show (Tally.ofScope 9 (Scope.ofLines _)).unrecognized ++ _ = _
    decide +kernel
  · rw [htally]

end RoutePolicy
