import RoutePolicy.Proofs.Segmentation

/-!
# Stray branch lines

An `elseif` or `else` continues a branch that stands before it.  It is stray when the nearest
boundary line before it is an `else`, or when there is none: then its scope has no branch yet.  The
strict reading refuses the first stray line of a body and reads every other body as the lenient one
does.

The scan `firstStray` carries a flag for "the scope has a branch".  `openedBy` reads the flag off the
last boundary line, so the flag after a part of the body is known without the scan.

* `strayFrom_cons`          a stray line is the next one, or stands in the rest;
* `firstStray_spec`         the scan finds the first one;
* `openedBy_lastBoundary?`  the flag is whether the lowest level that was cut so far has a branch.
-/

namespace RoutePolicy

/-! ## Which lines are stray -/

/-- The boundary nearest to the end. -/
def lastBoundary? (lines : List String) : Option Boundary :=
  (lines.filterMap boundary?).getLast?

/-- Whether a line continues a branch. -/
def ContinuesBranch (line : String) : Prop :=
  boundary? line = some .otherwise ∨ ∃ condition, boundary? line = some (.branch .elseIf condition)

/-- The `n`-th line, counted from one, continues a branch, and the nearest boundary line before it
is an `else` or does not exist. -/
def StrayLine (lines : List String) (n : Nat) (line : String) : Prop :=
  ∃ before after, lines = before ++ line :: after ∧ n = before.length + 1 ∧ ContinuesBranch line ∧
    (lastBoundary? before = none ∨ lastBoundary? before = some .otherwise)

/-- Whether a scope has a branch behind a boundary. -/
def openedBy (opened : Bool) : Option Boundary → Bool
  | none => opened
  | some (.branch _ _) => true
  | some .otherwise => false

theorem openedBy_eq_false {b : Option Boundary} :
    openedBy false b = false ↔ b = none ∨ b = some .otherwise := by
  rcases b with _ | ⟨kind, condition⟩ | _ <;> simp [openedBy]

theorem openedBy_lastBoundary?_cons (opened : Bool) (line : String) (lines : List String) :
    openedBy opened (lastBoundary? (line :: lines))
      = openedBy (openedBy opened (boundary? line)) (lastBoundary? lines) := by
  rw [lastBoundary?, lastBoundary?]
  cases hline : boundary? line with
  | none =>
    rw [List.filterMap_cons_none hline]
    rfl
  | some b =>
    rw [List.filterMap_cons_some hline, List.getLast?_cons]
    cases (lines.filterMap boundary?).getLast? with
    | none => rfl
    | some last => rcases last with ⟨kind, condition⟩ | _ <;> rfl

/-! ## The scan -/

/-- A stray line of what is left of a body, where `number` is the number of the next line and
`opened` says whether its scope has a branch already. -/
def StrayFrom (opened : Bool) (number : Nat) (lines : List String) (stray : StrayBranch) : Prop :=
  ∃ before line after, lines = before ++ line :: after ∧
    stray = { number := number + before.length, text := Line.trim line } ∧
    ContinuesBranch line ∧ openedBy opened (lastBoundary? before) = false

theorem strayFrom_cons {opened : Bool} {number : Nat} {line : String} {rest : List String}
    {stray : StrayBranch} :
    StrayFrom opened number (line :: rest) stray ↔
      (ContinuesBranch line ∧ opened = false ∧ stray = { number, text := Line.trim line }) ∨
      StrayFrom (openedBy opened (boundary? line)) (number + 1) rest stray := by
  constructor
  · rintro ⟨before, other, after, hlines, rfl, hcontinues, hopened⟩
    cases before with
    | nil =>
      obtain ⟨rfl, rfl⟩ := List.cons.inj hlines
      exact .inl ⟨hcontinues, hopened, rfl⟩
    | cons first before =>
      obtain ⟨rfl, rfl⟩ := List.cons.inj hlines
      rw [openedBy_lastBoundary?_cons] at hopened
      have hnumber : number + (line :: before).length = number + 1 + before.length := by
        rw [List.length_cons]
        omega
      exact .inr ⟨before, other, after, rfl, by rw [hnumber], hcontinues, hopened⟩
  · rintro (⟨hcontinues, rfl, rfl⟩ | ⟨before, other, after, rfl, rfl, hcontinues, hopened⟩)
    · exact ⟨[], line, rest, rfl, rfl, hcontinues, rfl⟩
    · have hnumber : number + 1 + before.length = number + (line :: before).length := by
        rw [List.length_cons]
        omega
      refine ⟨line :: before, other, after, rfl, by rw [hnumber], hcontinues, ?_⟩
      rw [openedBy_lastBoundary?_cons]
      exact hopened

theorem number_le_of_strayFrom {opened : Bool} {number : Nat} {lines : List String}
    {stray : StrayBranch} (h : StrayFrom opened number lines stray) : number ≤ stray.number := by
  obtain ⟨before, _, _, _, rfl, _, _⟩ := h
  exact Nat.le_add_right number before.length

/-- The number of a stray line determines it. -/
theorem strayFrom_unique {opened : Bool} {number : Nat} {lines : List String} {a b : StrayBranch}
    (ha : StrayFrom opened number lines a) (hb : StrayFrom opened number lines b)
    (h : a.number = b.number) : a = b := by
  obtain ⟨before, line, after, hlines, rfl, _, _⟩ := ha
  obtain ⟨before', line', after', hlines', rfl, _, _⟩ := hb
  have hlength : before.length = before'.length := Nat.add_left_cancel h
  rw [hlines] at hlines'
  obtain ⟨hbefore, hrest⟩ := List.append_inj hlines' hlength
  rw [hbefore, (List.cons.inj hrest).1]

seal boundary? in
theorem firstStray_cons (opened : Bool) (number : Nat) (line : String) (rest : List String) :
    firstStray opened number (line :: rest) = match boundary? line with
      | none => firstStray opened (number + 1) rest
      | some (.branch .ifThen _) => firstStray true (number + 1) rest
      | some (.branch .elseIf _) =>
        if opened then firstStray true (number + 1) rest
        else some { number, text := Line.trim line }
      | some .otherwise =>
        if opened then firstStray false (number + 1) rest
        else some { number, text := Line.trim line } := by
  rw [← boundary?_trim]
  -- sealed, `boundary?` is not evaluated along the catalog
  rfl

theorem firstStray_cons_of_stray {line : String} (h : ContinuesBranch line) (number : Nat)
    (rest : List String) :
    firstStray false number (line :: rest) = some { number, text := Line.trim line } := by
  rw [firstStray_cons]
  rcases h with h | ⟨condition, h⟩ <;> rw [h] <;> rfl

theorem not_stray_cases {opened : Bool} {line : String}
    (h : ¬ (ContinuesBranch line ∧ opened = false)) :
    opened = true ∨ boundary? line = none ∨
      ∃ condition, boundary? line = some (.branch .ifThen condition) := by
  cases opened with
  | true => exact .inl rfl
  | false =>
    right
    cases hline : boundary? line with
    | none => exact .inl rfl
    | some b =>
      rcases b with ⟨_ | _, condition⟩ | _
      · exact .inr ⟨condition, rfl⟩
      · exact absurd ⟨.inr ⟨condition, hline⟩, rfl⟩ h
      · exact absurd ⟨.inl hline, rfl⟩ h

theorem firstStray_cons_of_not_stray {opened : Bool} {line : String}
    (h : ¬ (ContinuesBranch line ∧ opened = false)) (number : Nat) (rest : List String) :
    firstStray opened number (line :: rest)
      = firstStray (openedBy opened (boundary? line)) (number + 1) rest := by
  rw [firstStray_cons]
  rcases not_stray_cases h with rfl | hline | ⟨condition, hline⟩
  · rcases boundary? line with _ | ⟨_ | _, condition⟩ | _ <;> rfl
  · rw [hline]
    rfl
  · rw [hline]
    rfl

/-- The scan finds the stray line with the least number, or there is none. -/
theorem firstStray_spec (opened : Bool) (number : Nat) (lines : List String) :
    (firstStray opened number lines = none ∧ ∀ stray, ¬ StrayFrom opened number lines stray) ∨
    ∃ stray, firstStray opened number lines = some stray ∧ StrayFrom opened number lines stray ∧
      ∀ other, StrayFrom opened number lines other → stray.number ≤ other.number := by
  induction lines generalizing opened number with
  | nil =>
    left
    refine ⟨rfl, ?_⟩
    rintro stray ⟨before, line, after, hlines, _⟩
    exact absurd hlines (by simp)
  | cons line rest ih =>
    by_cases hstray : ContinuesBranch line ∧ opened = false
    · obtain ⟨hcontinues, rfl⟩ := hstray
      right
      refine ⟨_, firstStray_cons_of_stray hcontinues number rest,
        strayFrom_cons.mpr (.inl ⟨hcontinues, rfl, rfl⟩), fun other hother => ?_⟩
      exact number_le_of_strayFrom hother
    · have hiff : ∀ stray, StrayFrom opened number (line :: rest) stray ↔
          StrayFrom (openedBy opened (boundary? line)) (number + 1) rest stray := by
        intro stray
        rw [strayFrom_cons, or_iff_right]
        exact fun h => hstray ⟨h.1, h.2.1⟩
      simp only [firstStray_cons_of_not_stray hstray, hiff]
      exact ih _ _

/-! ## The scope of a line -/

/-- The level that the next line of a body would join. -/
def Scope.bottom : Scope → Level
  | .last level => level
  | .orElse _ other => other.bottom

theorem openedBy_lastBoundary? (opened : Bool) (lines : List String) :
    openedBy opened (lastBoundary? lines) = match Scope.ofLines lines with
      | .last level => opened || !level.branches.isEmpty
      | .orElse _ other => !other.bottom.branches.isEmpty := by
  induction lines generalizing opened with
  | nil => exact (Bool.or_false opened).symm
  | cons line rest ih =>
    rw [openedBy_lastBoundary?_cons, ih, Scope.ofLines_cons, Scope.addLine, boundary?_trim]
    -- a line changes the top level only, which is the lowest one when there is no `else`
    cases hline : boundary? line with
    | none => cases Scope.ofLines rest <;> rfl
    | some b =>
      rcases b with ⟨kind, condition⟩ | _
      · cases Scope.ofLines rest with
        | last level => exact (Bool.or_true opened).symm
        | orElse level other => rfl
      · cases Scope.ofLines rest <;> rfl

theorem branches_bottom_eq_nil_iff (lines : List String) :
    (Scope.ofLines lines).bottom.branches = [] ↔
      lastBoundary? lines = none ∨ lastBoundary? lines = some .otherwise := by
  rw [← openedBy_eq_false, openedBy_lastBoundary?]
  cases Scope.ofLines lines <;> simp [Scope.bottom]

/-! ## The strict reading -/

theorem strayFrom_iff {lines : List String} {stray : StrayBranch} :
    StrayFrom false 1 lines stray ↔
      ∃ line, StrayLine lines stray.number line ∧ stray.text = Line.trim line := by
  constructor
  · rintro ⟨before, line, after, hlines, rfl, hcontinues, hopened⟩
    exact ⟨line, ⟨before, after, hlines, Nat.add_comm _ _, hcontinues,
      openedBy_eq_false.mp hopened⟩, rfl⟩
  · rintro ⟨line, ⟨before, after, hlines, hnumber, hcontinues, hopened⟩, htext⟩
    refine ⟨before, line, after, hlines, ?_, hcontinues, openedBy_eq_false.mpr hopened⟩
    obtain ⟨number, text⟩ := stray
    rw [show number = before.length + 1 from hnumber, show text = Line.trim line from htext,
      Nat.add_comm]

theorem segment_strict_eq_error_iff {lines : List String} {stray : StrayBranch} :
    segment true lines = .error stray ↔ firstStray false 1 lines = some stray := by
  unfold segment
  cases firstStray false 1 lines with
  | none => simp
  | some first => simp

theorem segment_strict_of_none {lines : List String} (h : firstStray false 1 lines = none) :
    segment true lines = .ok (Scope.ofLines lines) := by
  unfold segment
  rw [h]

theorem firstStray_eq_none_iff {lines : List String} :
    firstStray false 1 lines = none ↔ ∀ n line, ¬ StrayLine lines n line := by
  rcases firstStray_spec false 1 lines with ⟨hnone, hall⟩ | ⟨stray, hsome, hfrom, _⟩
  · refine iff_of_true hnone fun n line hline => ?_
    exact hall ⟨n, Line.trim line⟩ (strayFrom_iff.mpr ⟨line, hline, rfl⟩)
  · obtain ⟨line, hline, _⟩ := strayFrom_iff.mp hfrom
    rw [hsome]
    exact iff_of_false (by simp) fun hall => hall _ _ hline

/-- The scan stops at the stray line that no other one stands before. -/
theorem firstStray_eq_some_iff {lines : List String} {stray : StrayBranch} :
    firstStray false 1 lines = some stray ↔
      StrayFrom false 1 lines stray ∧
        ∀ other, StrayFrom false 1 lines other → stray.number ≤ other.number := by
  rcases firstStray_spec false 1 lines with ⟨hnone, hall⟩ | ⟨first, hsome, hfrom, hleast⟩
  · rw [hnone]
    exact iff_of_false (by simp) fun h => hall stray h.1
  · rw [hsome]
    constructor
    · intro h
      obtain rfl := Option.some.inj h
      exact ⟨hfrom, hleast⟩
    · rintro ⟨hstray, hbefore⟩
      have hnumber := Nat.le_antisymm (hleast stray hstray) (hbefore first hfrom)
      rw [strayFrom_unique hfrom hstray hnumber]

/-- **The strict reading is the lenient one and a check for stray lines.**  It refuses a body exactly
at the first stray line, by its number in the whole body and its trimmed text.  A body without stray
lines it cuts as the lenient reading does, which takes every body.  And a line that continues a
branch is stray exactly when the lowest level cut from the lines before it has no branch. -/
theorem segment_strict (lines : List String) :
    (∀ n text, segment true lines = .error ⟨n, text⟩ ↔
      ∃ line, StrayLine lines n line ∧ text = Line.trim line ∧
        ∀ m other, StrayLine lines m other → n ≤ m) ∧
    (∃ scope, segment false lines = .ok scope ∧
      ((∀ n line, ¬ StrayLine lines n line) → segment true lines = .ok scope)) ∧
    (∀ before line after, lines = before ++ line :: after → ContinuesBranch line →
      (StrayLine lines (before.length + 1) line ↔
        (Scope.ofLines before).bottom.branches = [])) := by
  refine ⟨fun n text => ?_, ⟨_, segment_lenient lines, fun hall => ?_⟩, ?_⟩
  · rw [segment_strict_eq_error_iff, firstStray_eq_some_iff, strayFrom_iff]
    constructor
    · rintro ⟨⟨line, hline, htext⟩, hleast⟩
      refine ⟨line, hline, htext, fun m other hother => ?_⟩
      exact hleast ⟨m, Line.trim other⟩ (strayFrom_iff.mpr ⟨other, hother, rfl⟩)
    · rintro ⟨line, hline, htext, hleast⟩
      refine ⟨⟨line, hline, htext⟩, fun other hother => ?_⟩
      obtain ⟨otherLine, hotherLine, _⟩ := strayFrom_iff.mp hother
      exact hleast other.number otherLine hotherLine
  · exact segment_strict_of_none (firstStray_eq_none_iff.mpr hall)
  · intro before line after hlines hcontinues
    rw [branches_bottom_eq_nil_iff]
    constructor
    · rintro ⟨before', after', hlines', hnumber, _, hboundary⟩
      have hlength : before.length = before'.length := Nat.add_right_cancel hnumber
      rw [hlines] at hlines'
      rw [(List.append_inj hlines' hlength).1]
      exact hboundary
    · intro hboundary
      exact ⟨before, after, hlines, rfl, hcontinues, hboundary⟩

/-- A second `else` on the lower level. -/
def secondElse : List String :=
  ["if med eq 1 then", "pass", "else", "drop", " else\t", "elseif tag eq 2 then", "pass"]

/-- Branches on two levels, each one continued. -/
def continuedTwice : List String :=
  ["set tag 9", "if med eq 1 then", "pass", "elseif med eq 2 then", "drop", "else",
    "if tag eq 2 then", "drop", "elsewhere", "pass"]

theorem segment_strict_secondElse :
    (segment true secondElse = .error ⟨5, "else"⟩ ∧ StrayLine secondElse 5 " else\t" ∧
      ∀ m other, StrayLine secondElse m other → 5 ≤ m) ∧
    ((∀ n line, ¬ StrayLine continuedTwice n line) ∧
      segment true continuedTwice = segment false continuedTwice) := by
  have hstray : segment true secondElse = .error ⟨5, "else"⟩ :=
    segment_strict_eq_error_iff.mpr (by decide +kernel)
  obtain ⟨_, _, _, hleast⟩ := ((segment_strict secondElse).1 5 "else").mp hstray
  have hline : ContinuesBranch " else\t" := .inl (by decide +kernel)
  have hscope : (Scope.ofLines (secondElse.take 4)).bottom.branches = [] := by decide +kernel
  have hfifth := ((segment_strict secondElse).2.2 (secondElse.take 4) " else\t"
    (secondElse.drop 5) rfl hline).mpr hscope
  have hnone : ∀ n line, ¬ StrayLine continuedTwice n line :=
    firstStray_eq_none_iff.mp (by decide +kernel)
  obtain ⟨scope, hlenient, hstrict⟩ := (segment_strict continuedTwice).2.1
  exact ⟨⟨hstray, hfifth, hleast⟩, hnone, (hstrict hnone).trans hlenient.symm⟩

end RoutePolicy
