import Mathlib.Data.List.Induction
import RoutePolicy.Proofs.Row

/-!
# Layout

Two configurations that are laid out differently have the same policies and the same facts, and are
refused for the same reason.  What counts as layout:

* a row that is blank, a comment or the end of a branch may come or go (`IsSpacer`);
* the blanks at the end of a row may change, and so may its line end, since a carriage return in
  front of a line feed is a blank at the end of the row;
* the blanks in front of a row may change, unless its first word is `route-policy`.  There the first
  column tells a header from an attachment.

Both scans of a configuration, for headers and for bodies, go row by row, and layout changes neither
what a row gives nor the state behind it (`SameRow.step`, `IsSpacer.step`).

* `Relaid.names`, `Relaid.body`   the two scans over rows that are laid out anew;
* `configFacts_relaid`            what is read from a text that is laid out anew.
-/

namespace RoutePolicy

/-! ## Blanks around a row -/

namespace Text

theorem trim_trimEnd (cs : List Char) : trim (trimEnd cs) = trim cs := by
  induction cs using List.reverseRecOn with
  | nil => rfl
  | append_singleton cs c ih =>
    cases h : isBlank c with
    | true => rw [trimEnd_append_blank h, trim_append_blank h, ih]
    | false => rw [trimEnd_append_solid h]

theorem words_append_blank {c : Char} (h : isBlank c = true) (cs : List Char) :
    words (cs ++ [c]) = words cs := by
  induction cs with
  | nil =>
    show words [c] = []
    rw [words, if_pos h, words_nil]
  | cons d cs ih =>
    have hhead : (cs ++ [c]).head?.all isBlank = cs.head?.all isBlank := by
      cases cs with
      | nil => exact h
      | cons e cs => rfl
    rw [List.cons_append, words, words, ih, hhead]

theorem words_trimStart (cs : List Char) : words (trimStart cs) = words cs := by
  induction cs with
  | nil => rfl
  | cons c cs ih =>
    cases h : isBlank c with
    | true => rw [trimStart_cons_blank h, ih, words, if_pos h]
    | false => rw [trimStart_cons_solid h]

theorem trimStart_ne_nil {cs : List Char} (h : words cs ≠ []) : trimStart cs ≠ [] := by
  intro hnil
  rw [← words_trimStart, hnil] at h
  exact h words_nil

theorem words_trim (cs : List Char) : words (trim cs) = words cs := by
  have hend : ∀ ds, words (trimEnd ds) = words ds := by
    intro ds
    induction ds using List.reverseRecOn with
    | nil => rfl
    | append_singleton ds c ih =>
      cases h : isBlank c with
      | true => rw [trimEnd_append_blank h, words_append_blank h, ih]
      | false => rw [trimEnd_append_solid h]
  rw [trim, hend, words_trimStart]

end Text

theorem headerName?_trimEnd (cs : List Char) :
    headerName? (String.ofList (Text.trimEnd cs)) = headerName? (String.ofList cs) := by
  induction cs using List.reverseRecOn with
  | nil => rfl
  | append_singleton cs c ih =>
    cases h : Text.isBlank c with
    | true => rw [Text.trimEnd_append_blank h, headerName?_append_blank h, ih]
    | false => rw [Text.trimEnd_append_solid h]

theorem firstWord_of_headerName? {row name : String} (h : headerName? row = some name) :
    Text.firstWord row.toList = "route-policy".toList := by
  obtain ⟨gap, tail, trailing, hline, hgap, hblanks, _⟩ := opensPolicy_of_headerName? h
  obtain ⟨b, gap, rfl⟩ := List.exists_cons_of_ne_nil hgap
  rw [hline]
  simp only [List.append_assoc]
  exact Text.firstWord_append (Text.solid_of_all (by decide +kernel)) (by decide)
    (Text.separated_cons (hblanks b List.mem_cons_self) _)

/-! ## Rows that may change -/

/-- Two rows that differ in blanks at the end, or in blanks at both ends if they do not start with
the word `route-policy`. -/
def SameRow (a b : String) : Prop :=
  Text.trimEnd a.toList = Text.trimEnd b.toList ∨
    (Text.trim a.toList = Text.trim b.toList ∧
      Text.firstWord a.toList ≠ "route-policy".toList)

instance (a b : String) : Decidable (SameRow a b) :=
  inferInstanceAs (Decidable (_ ∨ _))

theorem SameRow.trim {a b : String} (h : SameRow a b) : Line.trim a = Line.trim b := by
  rcases h with h | ⟨h, _⟩
  · rw [Line.trim, Line.trim, ← Text.trim_trimEnd, h, Text.trim_trimEnd]
  · rw [Line.trim, Line.trim, h]

theorem SameRow.headerName? {a b : String} (h : SameRow a b) :
    headerName? a = headerName? b := by
  rcases h with h | ⟨h, hword⟩
  · have hends := headerName?_trimEnd a.toList
    rw [h, headerName?_trimEnd, String.ofList_toList, String.ofList_toList] at hends
    exact hends.symm
  · have hother : Text.firstWord b.toList ≠ "route-policy".toList := by
      rwa [Text.firstWord, ← Text.words_trim, ← h, Text.words_trim]
    have hnone : ∀ row : String, Text.firstWord row.toList ≠ "route-policy".toList →
        RoutePolicy.headerName? row = none := fun row hrow =>
      Option.eq_none_iff_forall_ne_some.mpr fun name hname => hrow (firstWord_of_headerName? hname)
    rw [hnone a hword, hnone b hother]

/-- A row that is blank, a comment, or the end of a branch. -/
def IsSpacer (row : String) : Prop :=
  Line.trim row = "" ∨ (Line.trim row).toList.head? = some '!' ∨ Line.trim row = "endif"

instance (row : String) : Decidable (IsSpacer row) :=
  inferInstanceAs (Decidable (_ ∨ _))

theorem IsSpacer.isFiller {row : String} (h : IsSpacer row) : isFiller (Line.trim row) = true := by
  simp only [RoutePolicy.isFiller, Bool.or_eq_true, decide_eq_true_eq]
  exact or_assoc.mpr h

theorem IsSpacer.headerName? {row : String} (h : IsSpacer row) : headerName? row = none := by
  refine Option.eq_none_iff_forall_ne_some.mpr fun name hname => ?_
  -- a header starts with another letter
  have hhead : (Line.trim row).toList.head? = some 'r' := by
    obtain ⟨⟨after, hafter⟩, _⟩ := keyword_of_headerName? hname
    rw [Line.toList_trim, ← hafter]
    rfl
  rcases h with h | h | h <;> rw [h] at hhead <;> exact absurd hhead (by decide)

/-! ## Both scans, row by row -/

theorem SameRow.step {a b : String} (h : SameRow a b) (name : String) (inside : Bool) :
    bodyLine? a = bodyLine? b ∧ insideAfter name inside a = insideAfter name inside b := by
  constructor
  · rw [bodyLine?, bodyLine?, h.headerName?, h.trim]
  · rw [insideAfter, insideAfter, h.headerName?, h.trim]

theorem IsSpacer.step {row : String} (h : IsSpacer row) (name : String) (inside : Bool) :
    bodyLine? row = none ∧ insideAfter name inside row = inside := by
  have hend : Line.trim row ≠ endLine := by
    intro hend
    have hfiller := h.isFiller
    rw [hend, isFiller_endLine] at hfiller
    cases hfiller
  constructor
  · rw [bodyLine?, h.isFiller, if_neg]
    exact fun hall => Bool.noConfusion hall.2.1
  · simp [insideAfter, h.headerName?, hend]

/-- Two lists of rows that differ in layout. -/
inductive Relaid : List String → List String → Prop
  | nil : Relaid [] []
  | added {row : String} {rows rows' : List String} (hrow : IsSpacer row) (h : Relaid rows rows') :
    Relaid rows (row :: rows')
  | removed {row : String} {rows rows' : List String} (hrow : IsSpacer row)
      (h : Relaid rows rows') : Relaid (row :: rows) rows'
  | kept {row row' : String} {rows rows' : List String} (hrow : SameRow row row')
      (h : Relaid rows rows') : Relaid (row :: rows) (row' :: rows')

theorem Relaid.names {rows rows' : List String} (h : Relaid rows rows') :
    rows.filterMap headerName? = rows'.filterMap headerName? := by
  induction h with
  | nil => rfl
  | added hrow _ ih => rw [ih, List.filterMap_cons_none hrow.headerName?]
  | removed hrow _ ih => rw [← ih, List.filterMap_cons_none hrow.headerName?]
  | kept hrow _ ih => rw [List.filterMap_cons, List.filterMap_cons, hrow.headerName?, ih]

theorem IsSpacer.bodyFrom_cons {row : String} (h : IsSpacer row) (name : String) (inside : Bool)
    (rows : List String) : bodyFrom name inside (row :: rows) = bodyFrom name inside rows := by
  obtain ⟨hbody, hinside⟩ := h.step name inside
  rw [RoutePolicy.bodyFrom_cons, hbody, hinside, Option.toList_none, ite_self, List.nil_append]

theorem Relaid.body {rows rows' : List String} (h : Relaid rows rows') (name : String)
    (inside : Bool) : bodyFrom name inside rows = bodyFrom name inside rows' := by
  induction h generalizing inside with
  | nil => rfl
  | added hrow _ ih => rw [hrow.bodyFrom_cons, ih]
  | removed hrow _ ih => rw [hrow.bodyFrom_cons, ih]
  | kept hrow _ ih =>
    obtain ⟨hbody, hinside⟩ := hrow.step name inside
    rw [bodyFrom_cons, bodyFrom_cons, hbody, hinside, ih]

/-! ## Configurations -/

/-- **Layout does not matter.**  Two configurations whose rows differ in layout have the same
policies, cut and counted in the same way, and the same facts; or they are refused with the same
error, the number of a stray branch line included. -/
theorem configFacts_relaid {config other : String}
    (h : Relaid (Line.rows config) (Line.rows other)) (strict : Bool) :
    configTraces strict config = configTraces strict other ∧
      configFacts strict config = configFacts strict other := by
  have hnames : policyNames config = policyNames other := by
    rw [policyNames_eq_rows, policyNames_eq_rows, h.names]
  have hbody : ∀ name, bodyLines name config = bodyLines name other := by
    intro name
    rw [bodyLines_eq_rows, bodyLines_eq_rows, hnames, h.body]
  have htraces : configTraces strict config = configTraces strict other := by
    simp only [configTraces_eq, hnames, trace, hbody]
  exact ⟨htraces, by rw [configFacts_eq, configFacts_eq, htraces]⟩

/-- A policy with a stray branch line, and a second one. -/
def plainLayout : String :=
  "route-policy A\n set tag 7\n else\n  drop\n endif\nend-policy\nroute-policy B($x)\n pass"

/-- The same with other line ends and indentation, with comments and without an `endif`. -/
def otherLayout : String :=
  "! edge\r\nroute-policy A \t\r\nset tag 7\r\n\r\n  endif\r\n\telse \r\ndrop\r\nend-policy\n"
    ++ "!\nroute-policy B($x)\r\n\u3000pass\n"

theorem configFacts_otherLayout :
    Relaid (Line.rows plainLayout) (Line.rows otherLayout) ∧
    configFacts true plainLayout = .error (.strayBranch ⟨2, "else"⟩) ∧
    configFacts true plainLayout = configFacts true otherLayout ∧
    configFacts false plainLayout = configFacts false otherLayout := by
  have hrows : Line.rows plainLayout = ["route-policy A", " set tag 7", " else", "  drop", " endif",
      "end-policy", "route-policy B($x)", " pass"] := by decide +kernel
  have hother : Line.rows otherLayout = ["! edge\r", "route-policy A \t\r", "set tag 7\r", "\r",
      "  endif\r", "\telse \r", "drop\r", "end-policy", "!", "route-policy B($x)\r", "\u3000pass",
      ""] := by decide +kernel
  have hrelaid : Relaid (Line.rows plainLayout) (Line.rows otherLayout) := by
    rw [hrows, hother]
    exact .added (by decide +kernel) <| .kept (by decide +kernel) <| .kept (by decide +kernel) <|
      .added (by decide +kernel) <| .added (by decide +kernel) <| .kept (by decide +kernel) <|
      .kept (by decide +kernel) <| .removed (by decide +kernel) <| .kept (by decide +kernel) <|
      .added (by decide +kernel) <| .kept (by decide +kernel) <| .kept (by decide +kernel) <|
      .added (by decide +kernel) .nil
  exact ⟨hrelaid, by decide +kernel, (configFacts_relaid hrelaid true).2,
    (configFacts_relaid hrelaid false).2⟩

end RoutePolicy
