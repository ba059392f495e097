import RoutePolicy.Scope.Segment

/-!
# Cutting and writing scopes

Cutting a body into scopes loses nothing, and writing a scope as lines undoes it.

* `render_ofLines`    what was cut writes back as the trimmed body, an `else` line as `else`;
* `wellFormed_ofLines`   every line went where its boundary sends it;
* `ofLines_render`    a well-formed scope of trimmed lines is cut from the lines that it writes.

Both directions go by one line at a time: `addLine` puts a line on top of a scope, and the lemmas
about it say what that does to the rendered lines and to well-formedness.
-/

namespace RoutePolicy

/-! ## Trimmed lines -/

theorem recognize_trim (allowed : LineClass → Bool) (line : String) :
    recognize allowed (Line.trim line) = recognize allowed line := by
  simp only [recognize, Line.toList_trim, Text.trim_trim]

theorem boundary?_trim (line : String) : boundary? (Line.trim line) = boundary? line := by
  rw [boundary?, recognize_trim, boundary?]

theorem boundary?_else : boundary? "else" = some .otherwise := by
  decide +kernel

theorem trim_else : Line.trim "else" = "else" := by
  decide +kernel

/-- How a body line comes back: trimmed, and as `else` if it opens an `else` scope. -/
def writtenLine (line : String) : String :=
  if boundary? line = some .otherwise then "else" else Line.trim line

/-! ## Well-formed scopes -/

/-- A branch is what its line says it is, and no line under it opens another one. -/
structure Branch.WellFormed (b : Branch) : Prop where
  /-- the line opens this branch -/
  opens : boundary? b.line = some (.branch b.kind b.condition)
  /-- the lines under it open nothing -/
  plain : ∀ line ∈ b.statements, boundary? line = none

/-- A level whose lines stand where they belong. -/
structure Level.WellFormed (l : Level) : Prop where
  /-- the lines before the first branch open nothing -/
  plain : ∀ line ∈ l.globals, boundary? line = none
  /-- every branch is well formed -/
  branches : ∀ b ∈ l.branches, b.WellFormed

/-- A scope all of whose levels are well formed. -/
def Scope.WellFormed (s : Scope) : Prop :=
  ∀ l ∈ s.levels, l.WellFormed

/-- A scope all of whose lines are trimmed. -/
def Scope.Trimmed (s : Scope) : Prop :=
  ∀ line ∈ s.render, Line.trim line = line

namespace Level

theorem wellFormed_empty : ({} : Level).WellFormed :=
  ⟨fun _ h => absurd h (by simp), fun _ h => absurd h (by simp)⟩

/-- a further line in front -/
theorem WellFormed.addGlobal {l : Level} (h : l.WellFormed) {line : String}
    (hline : boundary? line = none) :
    ({ l with globals := line :: l.globals } : Level).WellFormed := by
  refine ⟨fun other hother => ?_, h.branches⟩
  rcases List.mem_cons.mp hother with rfl | hmem
  · exact hline
  · exact h.plain other hmem

/-- a further branch in front, which takes over the lines before the others -/
theorem WellFormed.addBranch {l : Level} (h : l.WellFormed) {line condition : String}
    {kind : BranchKind} (hline : boundary? line = some (.branch kind condition)) :
    ({ branches := { kind, line, condition, statements := l.globals } :: l.branches }
      : Level).WellFormed := by
  refine ⟨fun _ hmem => absurd hmem (by simp), fun b hb => ?_⟩
  rcases List.mem_cons.mp hb with rfl | hmem
  · exact ⟨hline, h.plain⟩
  · exact h.branches b hmem

end Level

/-! ## One line -/

namespace Scope

@[simp] theorem wellFormed_last (l : Level) : (Scope.last l).WellFormed ↔ l.WellFormed := by
  simp [WellFormed, levels]

@[simp] theorem wellFormed_orElse (l : Level) (other : Scope) :
    (Scope.orElse l other).WellFormed ↔ l.WellFormed ∧ other.WellFormed := by
  simp [WellFormed, levels]

theorem WellFormed.mapLevel {s : Scope} (h : s.WellFormed) {f : Level → Level}
    (hf : s.level.WellFormed → (f s.level).WellFormed) : (s.mapLevel f).WellFormed := by
  cases s with
  | last l => exact (wellFormed_last _).mpr (hf ((wellFormed_last l).mp h))
  | orElse l other =>
    obtain ⟨hl, hother⟩ := (wellFormed_orElse l other).mp h
    exact (wellFormed_orElse _ _).mpr ⟨hf hl, hother⟩

theorem mapLevel_congr {s : Scope} {f g : Level → Level} (h : f s.level = g s.level) :
    s.mapLevel f = s.mapLevel g := by
  cases s with
  | last l => exact congrArg Scope.last h
  | orElse l other => exact congrArg (Scope.orElse · other) h

theorem mapLevel_mapLevel (s : Scope) (f g : Level → Level) :
    (s.mapLevel f).mapLevel g = s.mapLevel fun l => g (f l) := by
  cases s <;> rfl

theorem mapLevel_self {s : Scope} {f : Level → Level} (h : f s.level = s.level) :
    s.mapLevel f = s := by
  cases s with
  | last l => exact congrArg Scope.last h
  | orElse l other => exact congrArg (Scope.orElse · other) h

/-- A change of the top level that adds lines in front of it adds them in front of the scope. -/
theorem render_mapLevel {s : Scope} {f : Level → Level} (front : List String)
    (hf : (f s.level).render = front ++ s.level.render) :
    (s.mapLevel f).render = front ++ s.render := by
  cases s with
  | last l => exact hf
  | orElse l other =>
    show (f l).render ++ "else" :: other.render = front ++ (l.render ++ "else" :: other.render)
    rw [show (f l).render = front ++ l.render from hf, List.append_assoc]

theorem wellFormed_addLine {s : Scope} (h : s.WellFormed) (line : String) :
    (s.addLine line).WellFormed := by
  rw [addLine]
  split
  · rename_i hline
    exact h.mapLevel fun hl => hl.addGlobal hline
  · rename_i kind condition hline
    exact h.mapLevel fun hl => hl.addBranch hline
  · exact (wellFormed_orElse _ _).mpr ⟨Level.wellFormed_empty, h⟩

theorem render_addLine (s : Scope) (line : String) :
    (s.addLine (Line.trim line)).render = writtenLine line :: s.render := by
  rw [addLine, boundary?_trim, writtenLine]
  cases hline : boundary? line with
  | none => exact render_mapLevel [Line.trim line] rfl
  | some boundary =>
    cases boundary with
    | branch kind condition =>
      -- the lines before the first branch become the statements of the new one
      exact render_mapLevel [Line.trim line] rfl
    | otherwise => rfl

/-! ## A whole body -/

theorem wellFormed_ofLines (lines : List String) : (ofLines lines).WellFormed := by
  induction lines with
  | nil => exact (wellFormed_last _).mpr Level.wellFormed_empty
  | cons line rest ih => exact wellFormed_addLine ih _

theorem render_ofLines (lines : List String) : (ofLines lines).render = lines.map writtenLine := by
  induction lines with
  | nil => rfl
  | cons line rest ih => rw [ofLines_cons, render_addLine, ih, List.map_cons]

theorem trimmed_ofLines (lines : List String) : (ofLines lines).Trimmed := by
  intro written h
  rw [render_ofLines] at h
  obtain ⟨line, _, rfl⟩ := List.mem_map.mp h
  rw [writtenLine]
  split
  · exact trim_else
  · exact Line.trim_trim line

/-! ## Lines that a scope wrote -/

/-- Lines that open nothing join the lines before the first branch. -/
theorem ofLines_plain_append {lines : List String} (hplain : ∀ line ∈ lines, boundary? line = none)
    (htrim : ∀ line ∈ lines, Line.trim line = line) (rest : List String) :
    ofLines (lines ++ rest)
      = (ofLines rest).mapLevel fun l => { l with globals := lines ++ l.globals } := by
  induction lines with
  | nil => exact (mapLevel_self rfl).symm
  | cons line lines ih =>
    have ih' := ih (fun l hl => hplain l (List.mem_cons_of_mem _ hl))
      (fun l hl => htrim l (List.mem_cons_of_mem _ hl))
    rw [List.cons_append, ofLines_cons, ih', htrim line List.mem_cons_self, addLine,
      hplain line List.mem_cons_self]
    exact mapLevel_mapLevel _ _ _

/-- The lines of a branch, before lines that start with a branch or an `else`, are cut into that
branch again. -/
theorem ofLines_branch_append {b : Branch} (hb : b.WellFormed)
    (htrim : ∀ line ∈ b.render, Line.trim line = line) {rest : List String}
    (hrest : (ofLines rest).level.globals = []) :
    ofLines (b.render ++ rest)
      = (ofLines rest).mapLevel fun l => { l with branches := b :: l.branches } := by
  have hline : Line.trim b.line = b.line := htrim _ List.mem_cons_self
  have hstatements : ∀ line ∈ b.statements, Line.trim line = line := fun line h =>
    htrim line (List.mem_cons_of_mem _ h)
  rw [Branch.render, List.cons_append, ofLines_cons, ofLines_plain_append hb.plain hstatements,
    hline, addLine, hb.opens]
  refine (mapLevel_mapLevel _ _ _).trans (mapLevel_congr ?_)
  simp [hrest]

/-- The lines of a level, before lines that leave the level empty, are cut into that level again. -/
theorem ofLines_level_append {l : Level} (hl : l.WellFormed)
    (htrim : ∀ line ∈ l.render, Line.trim line = line) {rest : List String}
    (hrest : (ofLines rest).level = {}) :
    ofLines (l.render ++ rest) = (ofLines rest).mapLevel fun _ => l := by
  obtain ⟨globals, branches⟩ := l
  have hbranches : ofLines (branches.flatMap Branch.render ++ rest)
      = (ofLines rest).mapLevel fun _ => { branches } := by
    have htrim' : ∀ b ∈ branches, ∀ line ∈ b.render, Line.trim line = line := fun b hb line h =>
      htrim line (List.mem_append_right _ (List.mem_flatMap.mpr ⟨b, hb, h⟩))
    have hwell : ∀ b ∈ branches, b.WellFormed := hl.branches
    clear hl htrim
    induction branches with
    | nil => exact (mapLevel_self hrest.symm).symm
    | cons b branches ih =>
      have ih' := ih (fun b' hb' => htrim' b' (List.mem_cons_of_mem _ hb'))
        (fun b' hb' => hwell b' (List.mem_cons_of_mem _ hb'))
      rw [List.flatMap_cons, List.append_assoc,
        ofLines_branch_append (hwell b List.mem_cons_self) (htrim' b List.mem_cons_self)
          (by rw [ih', level_mapLevel]), ih']
      exact mapLevel_mapLevel _ _ _
  have hglobals : ∀ line ∈ globals, Line.trim line = line := fun line h =>
    htrim line (List.mem_append_left _ h)
  rw [Level.render, List.append_assoc, ofLines_plain_append hl.plain hglobals, hbranches]
  refine (mapLevel_mapLevel _ _ _).trans (mapLevel_congr ?_)
  simp

/-- A well-formed scope of trimmed lines is cut from the lines that it writes. -/
theorem ofLines_render {s : Scope} (h : s.WellFormed) (htrim : s.Trimmed) :
    ofLines s.render = s := by
  induction s with
  | last l =>
    have hlevel : ofLines (l.render ++ []) = .last l :=
      ofLines_level_append ((wellFormed_last l).mp h) htrim rfl
    rw [List.append_nil] at hlevel
    exact hlevel
  | orElse l other ih =>
    obtain ⟨hl, hother⟩ := (wellFormed_orElse l other).mp h
    have ih' := ih hother fun line hline =>
      htrim line (List.mem_append_right _ (List.mem_cons_of_mem _ hline))
    have hrest : ofLines ("else" :: other.render) = .orElse {} other := by
      rw [ofLines_cons, trim_else, addLine, boundary?_else, ih']
    rw [render, ofLines_level_append hl (fun line hline => htrim line (List.mem_append_left _ hline))
      (by rw [hrest]; rfl), hrest]
    rfl

end Scope

/-- **Segmentation loses nothing and invents nothing.**  Every body is cut into a well-formed scope
of trimmed lines, and the scope writes back as the trimmed body with `else` for every line that
opens an `else` scope; and every well-formed scope of trimmed lines is the cut of what it writes. -/
theorem segment_lossless :
    (∀ lines : List String, ∃ s, segment false lines = .ok s ∧ s.WellFormed ∧ s.Trimmed ∧
      s.render = lines.map writtenLine) ∧
    (∀ s : Scope, s.WellFormed → s.Trimmed → segment false s.render = .ok s) := by
  constructor
  · intro lines
    exact ⟨Scope.ofLines lines, segment_lenient lines, Scope.wellFormed_ofLines lines,
      Scope.trimmed_ofLines lines, Scope.render_ofLines lines⟩
  · intro s h htrim
    rw [segment_lenient, Scope.ofLines_render h htrim]

/-- Two levels, with a stray `elseif` on the lower one. -/
def twoLevels : Scope :=
  .orElse
    { globals := ["set tag 9"]
      branches := [⟨.ifThen, "if med eq 1 then", "med eq 1", ["pass", "frobnicate   it"]⟩] }
    (.last { branches := [⟨.elseIf, "elseif tag eq 2", "tag eq 2", []⟩] })

theorem segment_twoLevels :
    twoLevels.WellFormed ∧ twoLevels.Trimmed ∧ segment false twoLevels.render = .ok twoLevels := by
  have hwell : twoLevels.WellFormed := by
    refine (Scope.wellFormed_orElse _ _).mpr ⟨⟨by decide +kernel, ?_⟩,
      (Scope.wellFormed_last _).mpr ⟨by decide +kernel, ?_⟩⟩
    · intro b hb
      rw [List.mem_singleton.mp hb]
      exact ⟨by decide +kernel, by decide +kernel⟩
    · intro b hb
      rw [List.mem_singleton.mp hb]
      exact ⟨by decide +kernel, by decide +kernel⟩
  have htrim : twoLevels.Trimmed := by
    unfold Scope.Trimmed
    decide +kernel
  exact ⟨hwell, htrim, segment_lossless.2 twoLevels hwell htrim⟩

end RoutePolicy
