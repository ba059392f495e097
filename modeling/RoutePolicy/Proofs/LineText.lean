import RoutePolicy.Text.Lines
import RoutePolicy.Text.Trim

/-!
# Joining lines and cutting them again

Lines that are joined and cut again come back, up to two things that a line end hides: a carriage
return at the end of a line is taken for a part of the line feed behind it, and an empty last line
leaves no trace.  `Line.recut` makes exactly these changes.  Neither is seen in trimmed lines.

* `Text.lines_append_newline`   the first line of a text, and what it is cut from;
* `Text.newline_not_mem`        a line holds no line feed;
* `Line.ofText_join`            joined lines are cut into `recut` of them;
* `Line.trim_dropReturn`        a final carriage return does not matter to the trimmed line.
-/

namespace RoutePolicy

/-! ## Blanks at the ends -/

namespace Text

theorem trimStart_of_solid {cs : List Char} (h : ∀ c ∈ cs, isBlank c = false) :
    trimStart cs = cs := by
  cases cs with
  | nil => rfl
  | cons c cs => exact trimStart_cons_solid (h c List.mem_cons_self) cs

theorem trim_of_solid {cs : List Char} (h : ∀ c ∈ cs, isBlank c = false) : trim cs = cs := by
  have hreverse : ∀ c ∈ cs.reverse, isBlank c = false := fun c hc => h c (List.mem_reverse.mp hc)
  rw [trim, trimStart_of_solid h, trimEnd_eq_reverse, trimStart_of_solid hreverse,
    List.reverse_reverse]

theorem trim_cons_blank {c : Char} (h : isBlank c = true) (cs : List Char) :
    trim (c :: cs) = trim cs := by
  rw [trim, trimStart_cons_blank h, trim]

theorem trim_cons_solid {c : Char} (h : isBlank c = false) (cs : List Char) :
    trim (c :: cs) = c :: trimEnd cs := by
  rw [trim, trimStart_cons_solid h, trimEnd_cons_solid h]

theorem trim_append_blank {c : Char} (h : isBlank c = true) (cs : List Char) :
    trim (cs ++ [c]) = trim cs := by
  induction cs with
  | nil =>
    show trim [c] = []
    rw [trim_cons_blank h, trim_nil]
  | cons d cs ih =>
    rw [List.cons_append]
    cases hd : isBlank d with
    | true => rw [trim_cons_blank hd, trim_cons_blank hd, ih]
    | false => rw [trim_cons_solid hd, trim_cons_solid hd, trimEnd_append_blank h]

theorem trimEnd_prefix (cs : List Char) : trimEnd cs <+: cs := by
  have hsuffix : cs.reverse.dropWhile isBlank <:+ cs.reverse := List.dropWhile_suffix _
  have hprefix := List.reverse_prefix.mpr hsuffix
  rwa [List.reverse_reverse] at hprefix

theorem trimStart_of_trim {cs : List Char} (h : trim cs = cs) : trimStart cs = cs := by
  rw [← h, trimStart_trim]

theorem trimEnd_of_trim {cs : List Char} (h : trim cs = cs) : trimEnd cs = cs := by
  rw [← h, trim, trimEnd_trimEnd]

theorem trimStart_of_head {cs : List Char} (h : cs.head?.any isBlank = false) :
    trimStart cs = cs := by
  cases cs with
  | nil => rfl
  | cons c cs => exact trimStart_cons_solid (by simpa using h) cs

theorem trimStart_head_solid {cs rest : List Char} {c : Char} (h : trimStart cs = c :: rest) :
    isBlank c = false := by
  have hhead := List.head?_dropWhile_not isBlank cs
  rw [← trimStart, h] at hhead
  simpa using hhead

theorem isBlank_last {cs : List Char} {c : Char} (h : trimEnd (cs ++ [c]) = cs ++ [c]) :
    isBlank c = false := by
  cases hc : isBlank c with
  | false => rfl
  | true =>
    have hstart := trimEnd_prefix cs
    have hlen := hstart.length_le
    rw [← trimEnd_append_blank hc, h, List.length_append, List.length_singleton] at hlen
    omega

theorem trimEnd_append {ds : List Char} (h : trimEnd ds = ds) (hne : ds ≠ []) (cs : List Char) :
    trimEnd (cs ++ ds) = cs ++ ds := by
  rcases List.eq_nil_or_concat ds with rfl | ⟨ds, d, rfl⟩
  · exact absurd rfl hne
  · rw [List.concat_eq_append] at h ⊢
    rw [← List.append_assoc, trimEnd_append_solid (isBlank_last h)]

theorem trimEnd_of_append {cs ds : List Char} (h : trimEnd (cs ++ ds) = cs ++ ds) :
    trimEnd ds = ds := by
  rcases List.eq_nil_or_concat ds with rfl | ⟨ds, d, rfl⟩
  · rfl
  · rw [List.concat_eq_append, ← List.append_assoc] at h
    rw [List.concat_eq_append, trimEnd_append_solid (isBlank_last h)]

/-- blanks and nothing else -/
def Blanks (cs : List Char) : Prop := ∀ c ∈ cs, isBlank c = true

instance (cs : List Char) : Decidable (Blanks cs) :=
  decidable_of_iff (cs.all isBlank = true) List.all_eq_true

theorem Blanks.trimStart_append {gap : List Char} (h : Blanks gap) (cs : List Char) :
    trimStart (gap ++ cs) = trimStart cs :=
  List.dropWhile_append_of_pos h

theorem Blanks.trimEnd_append {gap : List Char} (h : Blanks gap) (cs : List Char) :
    trimEnd (cs ++ gap) = trimEnd cs := by
  have hreverse : Blanks gap.reverse := fun c hc => h c (List.mem_reverse.mp hc)
  rw [trimEnd_eq_reverse, List.reverse_append, hreverse.trimStart_append, trimEnd_eq_reverse]

theorem Blanks.concat {gap : List Char} (h : Blanks gap) {b : Char} (hb : isBlank b = true) :
    Blanks (gap ++ [b]) :=
  List.forall_mem_append.mpr ⟨h, List.forall_mem_singleton.mpr hb⟩

/-- What `trimStart` drops is blank. -/
theorem exists_blanks_trimStart (cs : List Char) : ∃ gap, Blanks gap ∧ cs = gap ++ trimStart cs := by
  have htake : ∀ c ∈ cs.takeWhile isBlank, isBlank c = true :=
    List.all_eq_true.mp List.all_takeWhile
  exact ⟨cs.takeWhile isBlank, htake, List.takeWhile_append_dropWhile.symm⟩

/-- What `trimEnd` drops is blank. -/
theorem exists_blanks_trimEnd (cs : List Char) : ∃ gap, Blanks gap ∧ cs = trimEnd cs ++ gap := by
  obtain ⟨gap, hgap, hsplit⟩ := exists_blanks_trimStart cs.reverse
  refine ⟨gap.reverse, fun c hc => hgap c (List.mem_reverse.mp hc), ?_⟩
  rw [trimEnd_eq_reverse, ← List.reverse_append, ← hsplit, List.reverse_reverse]

theorem mem_of_mem_trim {c : Char} {cs : List Char} (h : c ∈ trim cs) : c ∈ cs := by
  have h := (List.dropWhile_sublist _).mem (List.mem_reverse.mp h)
  exact (List.dropWhile_sublist _).mem (List.mem_reverse.mp h)

/-! ## The first line -/

theorem lines_cons {c : Char} {cs l : List Char} {ls : List (List Char)} (hc : c ≠ '\n')
    (hcs : c = '\r' → cs.head? ≠ some '\n') (h : lines cs = l :: ls) :
    lines (c :: cs) = (c :: l) :: ls := by
  unfold lines
  split
  · rename_i heq
    cases heq
  · rename_i heq
    cases heq
    exact absurd rfl hc
  · rename_i heq
    cases heq
    exact absurd rfl (hcs rfl)
  · rename_i heq
    cases heq
    rw [h]

/-- A text without line feeds in front of a line end is the first line. -/
theorem lines_append {cs stop : List Char} {ls : List (List Char)} (hcs : '\n' ∉ cs)
    (hstop : lines stop = [] :: ls)
    (hreturn : cs.getLast? = some '\r' → stop.head? ≠ some '\n') :
    lines (cs ++ stop) = cs :: ls := by
  induction cs with
  | nil => exact hstop
  | cons c cs ih =>
    have hc : c ≠ '\n' := fun h => hcs (by rw [h]; exact List.mem_cons_self)
    have hcs' : '\n' ∉ cs := fun h => hcs (List.mem_cons_of_mem _ h)
    cases cs with
    | nil =>
      refine lines_cons hc (fun hr => hreturn ?_) hstop
      rw [hr]
      rfl
    | cons d cs =>
      have hd : d ≠ '\n' := fun h => hcs' (by rw [h]; exact List.mem_cons_self)
      refine lines_cons hc (fun _ => by simpa using hd) (ih hcs' fun hlast => hreturn ?_)
      rwa [List.getLast?_cons_cons]

/-- A line without the carriage return that a line feed behind it would take. -/
def dropReturn (cs : List Char) : List Char :=
  if cs.getLast? = some '\r' then cs.dropLast else cs

theorem dropReturn_eq_self {cs : List Char} (h : cs.getLast? ≠ some '\r') : dropReturn cs = cs :=
  if_neg h

theorem dropReturn_concat (cs : List Char) : dropReturn (cs ++ ['\r']) = cs := by
  rw [dropReturn, if_pos List.getLast?_concat, List.dropLast_concat]

/-- Either nothing is dropped, or a carriage return at the end is. -/
theorem dropReturn_cases (cs : List Char) : dropReturn cs = cs ∨ cs = dropReturn cs ++ ['\r'] := by
  by_cases h : cs.getLast? = some '\r'
  · obtain ⟨before, rfl⟩ := List.getLast?_eq_some_iff.mp h
    right
    rw [dropReturn_concat]
  · left
    exact dropReturn_eq_self h

theorem lines_append_newline {cs : List Char} (hcs : '\n' ∉ cs) (more : List Char) :
    lines (cs ++ '\n' :: more) = dropReturn cs :: lines more := by
  by_cases h : cs.getLast? = some '\r'
  · obtain ⟨before, rfl⟩ := List.getLast?_eq_some_iff.mp h
    have hbefore : '\n' ∉ before := fun hmem => hcs (List.mem_append_left _ hmem)
    rw [dropReturn_concat, List.append_assoc]
    show lines (before ++ '\r' :: '\n' :: more) = before :: lines more
    exact lines_append hbefore rfl fun _ => by simp
  · rw [dropReturn_eq_self h]
    exact lines_append hcs rfl fun hlast => absurd hlast h

/-! ## All lines -/

theorem newline_not_mem {cs : List Char} : ∀ l ∈ lines cs, '\n' ∉ l := by
  fun_induction lines cs with
  | case1 => simp
  | case2 cs ih => simpa using ih
  | case3 cs ih => simpa using ih
  | case4 c cs hc _ hnil ih =>
    intro l hl
    rw [List.mem_singleton.mp hl, List.mem_singleton]
    exact fun heq => hc heq.symm
  | case5 c cs hc _ first rest hlines ih =>
    rw [hlines] at ih
    intro l hl
    rcases List.mem_cons.mp hl with rfl | hl
    · have hfirst := ih first List.mem_cons_self
      rw [List.mem_cons, not_or]
      exact ⟨fun heq => hc heq.symm, hfirst⟩
    · exact ih l (List.mem_cons_of_mem _ hl)

/-- A text without line feeds is one line, unless it is empty. -/
theorem lines_of_not_mem {cs : List Char} (h : '\n' ∉ cs) (hne : cs ≠ []) : lines cs = [cs] := by
  fun_induction lines cs with
  | case1 => exact absurd rfl hne
  | case2 cs ih => exact absurd List.mem_cons_self h
  | case3 cs ih => exact absurd (List.mem_cons_of_mem _ List.mem_cons_self) h
  | case4 c cs _ _ hnil ih =>
    cases cs with
    | nil => rfl
    | cons d cs =>
      rw [ih (fun hmem => h (List.mem_cons_of_mem _ hmem)) (by simp)] at hnil
      exact absurd hnil (by simp)
  | case5 c cs _ _ first rest hlines ih =>
    have hcs : cs ≠ [] := by
      rintro rfl
      simp at hlines
    rw [ih (fun hmem => h (List.mem_cons_of_mem _ hmem)) hcs] at hlines
    obtain ⟨rfl, rfl⟩ := List.cons.inj hlines
    rfl

end Text

/-! ## Joined lines -/

namespace Line

/-- A line without the carriage return that a line feed behind it would take. -/
def dropReturn (line : String) : String :=
  String.ofList (Text.dropReturn line.toList)

/-- What joined lines are cut into. -/
def recut : List String → List String
  | [] => []
  | [line] => if line = "" then [] else [line]
  | line :: next :: rest => dropReturn line :: recut (next :: rest)

theorem trim_dropReturn (line : String) : trim (dropReturn line) = trim line := by
  rw [trim, dropReturn, String.toList_ofList, trim]
  rcases Text.dropReturn_cases line.toList with h | h
  · rw [h]
  · rw [h, Text.dropReturn_concat, Text.trim_append_blank Text.isBlank_return]

theorem newline_not_mem_of_mem_ofText {text line : String} (h : line ∈ ofText text) :
    '\n' ∉ line.toList := by
  obtain ⟨l, hl, rfl⟩ := List.mem_map.mp h
  rw [String.toList_ofList]
  exact Text.newline_not_mem l hl

theorem ofText_join {lines : List String} (h : ∀ line ∈ lines, '\n' ∉ line.toList) :
    ofText (join lines) = recut lines := by
  rw [ofText, join, String.toList_ofList]
  fun_induction recut lines with
  | case1 => rfl
  | case2 => rfl
  | case3 line hne =>
    have hline : line.toList ≠ [] := by simpa using hne
    show (Text.lines line.toList).map String.ofList = [line]
    rw [Text.lines_of_not_mem (h line List.mem_cons_self) hline]
    simp
  | case4 line next rest ih =>
    have hline := h line List.mem_cons_self
    have hjoin : Text.unlines ((line :: next :: rest).map String.toList)
        = line.toList ++ '\n' :: Text.unlines ((next :: rest).map String.toList) := rfl
    rw [hjoin, Text.lines_append_newline hline, List.map_cons,
      ih fun l hl => h l (List.mem_cons_of_mem _ hl)]
    rfl

end Line

end RoutePolicy
