import RoutePolicy.Config.Body
import RoutePolicy.Proofs.Captured
import RoutePolicy.Proofs.Dispatch
import RoutePolicy.Proofs.LineText

/-!
# Header lines

Which lines open a policy, said by how they are put together, and what of a line its header does not
depend on.

* `headerName?_eq`              a header is read by the one rule for headers, from the first column;
* `headerName?_eq_some_iff`     it is `route-policy`, blanks, the name, and perhaps a parameter list;
* `accepts_of_headerName?`      its name is not empty and has no blank and no parenthesis;
* `headerName?_append_blank`    a blank at the end of a line changes nothing.
-/

namespace RoutePolicy

theorem recognize_header (line : String) :
    recognize (· = .header) line = Catalog.header.match? (Text.trim line.toList) := by
  rw [recognize_class, Catalog.ofClass, List.findSome?_cons, List.findSome?_nil]
  cases Catalog.header.match? (Text.trim line.toList) <;> rfl

theorem headerName?_eq (line : String) :
    headerName? line = if (line.toList.head?).any Text.isBlank then none
      else (Catalog.header.pattern.captures (Text.trim line.toList)).bind
        (Entries.get? "name") := by
  rw [headerName?, recognize_header, Rule.match?]
  cases Catalog.header.pattern.captures (Text.trim line.toList) with
  | none => rfl
  | some caps =>
    have hname : (Field.read ⟨"name", .text⟩ caps).text? = Entries.get? "name" caps := by
      rw [Field.read]
      cases Entries.get? "name" caps <;> rfl
    rw [Option.map_some, Option.bind_some, Option.bind_some, ← hname]
    rfl

/-- The line starts with `route-policy`, blanks and the name; then come a parameter list, if there is
one, and blanks. -/
def OpensPolicy (line name : String) : Prop :=
  ∃ gap tail trailing, line.toList = "route-policy".toList ++ gap ++ name.toList ++ tail ++ trailing ∧
    gap ≠ [] ∧ Text.Blanks gap ∧
    name ≠ "" ∧ (∀ c ∈ name.toList, Text.isBlank c = false ∧ c ≠ '(') ∧
    (tail = [] ∨ ∃ s, tail = '(' :: s ++ [')']) ∧ Text.Blanks trailing

theorem Pattern.isParameters_iff {cs : List Char} :
    isParameters cs = true ↔ ∃ s, cs = '(' :: s ++ [')'] ∧ '\n' ∉ s := by
  constructor
  · intro h
    unfold isParameters at h
    split at h
    · rename_i rest
      obtain ⟨hlast, hnewline⟩ : rest.getLast? = some ')' ∧ '\n' ∉ rest := by simpa using h
      obtain ⟨s, rfl⟩ := List.getLast?_eq_some_iff.mp hlast
      exact ⟨s, rfl, fun hmem => hnewline (List.mem_append_left _ hmem)⟩
    · cases h
  · rintro ⟨s, rfl, hnewline⟩
    show (decide ((s ++ [')']).getLast? = some ')') && decide ('\n' ∉ s ++ [')'])) = true
    simp [hnewline]

theorem accepts_plain_iff {name : String} :
    Form.plain.Accepts name.toList ↔
      name ≠ "" ∧ ∀ c ∈ name.toList, Text.isBlank c = false ∧ c ≠ '(' := by
  have hempty : name.toList ≠ [] ↔ name ≠ "" := by simp
  rw [← hempty]
  simp [Form.Accepts, Pattern.isNameChar, Form.isSolid]

theorem opensPolicy_of_headerName? {line name : String} (h : headerName? line = some name) :
    OpensPolicy line name := by
  rw [headerName?_eq] at h
  split at h
  · cases h
  · rename_i hcolumn
    obtain ⟨caps, hcaps, hget⟩ := Option.bind_eq_some_iff.mp h
    obtain ⟨cs, tail, hbehind, haccepts, htail, rfl⟩ := Pattern.captures_header_iff.mp hcaps
    obtain ⟨gap, htrim, hgap, hblanks, _, _⟩ := hbehind
    have hname : cs = name.toList := by
      rw [← Option.some.inj hget, String.toList_ofList]
    subst hname
    have hstart := Text.trimStart_of_head (Bool.eq_false_iff.mpr hcolumn)
    obtain ⟨trailing, htrailing, hend⟩ := Text.exists_blanks_trimEnd line.toList
    rw [Text.trim, hstart] at htrim
    obtain ⟨hne, hchars⟩ := accepts_plain_iff.mp haccepts
    refine ⟨gap, tail, trailing, ?_, hgap, hblanks, hne, hchars, ?_, htrailing⟩
    · rw [hend, htrim]
      simp only [List.append_assoc]
    · refine htail.imp_right fun hparameters => ?_
      obtain ⟨s, hs, _⟩ := Pattern.isParameters_iff.mp hparameters
      exact ⟨s, hs⟩

namespace OpensPolicy
variable {line name : String} (h : OpensPolicy line name)
include h

theorem starts : "route-policy".toList <+: line.toList := by
  obtain ⟨gap, tail, trailing, hline, _⟩ := h
  rw [hline]
  simp only [List.append_assoc]
  exact List.prefix_append _ _

theorem column : line.toList.head?.any Text.isBlank = false := by
  obtain ⟨after, hafter⟩ := h.starts
  rw [← hafter]
  rfl

/-- Without the blanks at its end the line is the keyword, blanks, and the name with its list. -/
theorem behind : ∃ tail,
    Pattern.Behind "route-policy".toList (Text.trim line.toList) (name.toList ++ tail) ∧
      (tail = [] ∨ ∃ s, tail = '(' :: s ++ [')']) ∧ tail ⊆ line.toList := by
  have hstart := Text.trimStart_of_head h.column
  obtain ⟨gap, tail, trailing, hline, hgap, hblanks, hne, hchars, htail, htrailing⟩ := h
  have hsolid : ∀ c ∈ name.toList, Text.isBlank c = false := fun c hc => (hchars c hc).1
  have hname : name.toList ≠ [] := by simpa using hne
  have hend : Text.trimEnd (name.toList ++ tail) = name.toList ++ tail := by
    rcases htail with rfl | ⟨s, rfl⟩
    · rw [List.append_nil, Text.trimEnd_of_trim (Text.trim_of_solid hsolid)]
    · rw [← List.append_assoc, Text.trimEnd_append_solid Text.isBlank_close]
  have htrim : Text.trim line.toList = "route-policy".toList ++ gap ++ (name.toList ++ tail) := by
    rw [Text.trim, hstart, hline, htrailing.trimEnd_append, List.append_assoc _ name.toList,
      Text.trimEnd_append hend (List.append_ne_nil_of_left_ne_nil hname tail)]
  refine ⟨tail, ⟨gap, htrim, hgap, hblanks, List.append_ne_nil_of_left_ne_nil hname tail, ?_⟩,
    htail, ?_⟩
  · obtain ⟨c, cs, hcs⟩ := List.exists_cons_of_ne_nil hname
    rw [hcs] at hsolid ⊢
    exact Text.trimStart_cons_solid (hsolid c List.mem_cons_self) _
  · rw [hline]
    exact fun c hc => List.mem_append_left _ (List.mem_append_right _ hc)

end OpensPolicy

theorem headerName?_of_opensPolicy {line name : String} (hnewline : '\n' ∉ line.toList)
    (h : OpensPolicy line name) : headerName? line = some name := by
  obtain ⟨tail, hbehind, htail, hsubset⟩ := h.behind
  have hparameters : tail = [] ∨ Pattern.isParameters tail = true := by
    refine htail.imp_right fun ⟨s, hs⟩ => Pattern.isParameters_iff.mpr ⟨s, hs, fun hmem => ?_⟩
    rw [hs] at hsubset
    exact hnewline (hsubset (List.mem_append_left _ (List.mem_cons_of_mem _ hmem)))
  have hcolumn := h.column
  obtain ⟨_, _, _, _, _, _, hne, hchars, _⟩ := h
  have hcaps : Catalog.header.pattern.captures (Text.trim line.toList) = some [("name", name)] :=
    Pattern.captures_header_iff.mpr ⟨name.toList, tail, hbehind,
      accepts_plain_iff.mpr ⟨hne, hchars⟩, hparameters, by rw [String.ofList_toList]⟩
  rw [headerName?_eq, hcolumn, hcaps]
  rfl

theorem headerName?_eq_some_iff {line name : String} (hnewline : '\n' ∉ line.toList) :
    headerName? line = some name ↔ OpensPolicy line name :=
  ⟨opensPolicy_of_headerName?, headerName?_of_opensPolicy hnewline⟩

section
variable {line name : String} (h : headerName? line = some name)
include h

theorem accepts_of_headerName? : Form.plain.Accepts name.toList := by
  obtain ⟨_, _, _, _, _, _, hne, hchars, _⟩ := opensPolicy_of_headerName? h
  exact accepts_plain_iff.mpr ⟨hne, hchars⟩

theorem keyword_of_headerName? :
    "route-policy".toList <+: Text.trim line.toList ∧ "route-policy".toList <+: line.toList := by
  have hopens := opensPolicy_of_headerName? h
  obtain ⟨tail, ⟨gap, htrim, _⟩, _⟩ := hopens.behind
  refine ⟨?_, hopens.starts⟩
  rw [htrim, List.append_assoc]
  exact List.prefix_append _ _

/-- A header closes nothing. -/
theorem trim_ne_endLine : Line.trim line ≠ endLine := by
  intro hend
  obtain ⟨⟨after, hafter⟩, _⟩ := keyword_of_headerName? h
  have hhead : some 'r' = some 'e' := by
    have := congrArg (fun s : String => s.toList.head?) hend
    rwa [Line.toList_trim, ← hafter] at this
  exact absurd hhead (by decide)

end

theorem headerName?_empty : headerName? "" = none := by
  decide +kernel

theorem headerName?_append_blank {c : Char} (hc : Text.isBlank c = true) (cs : List Char) :
    headerName? (String.ofList (cs ++ [c])) = headerName? (String.ofList cs) := by
  cases cs with
  | nil =>
    have hblank : headerName? (String.ofList [c]) = none := by
      rw [headerName?_eq, String.toList_ofList, if_pos]
      exact hc
    rw [List.nil_append, hblank]
    exact headerName?_empty.symm
  | cons d cs =>
    rw [headerName?_eq, headerName?_eq, String.toList_ofList, String.toList_ofList,
      Text.trim_append_blank hc]
    rfl

theorem headerName?_dropReturn (line : String) :
    headerName? (Line.dropReturn line) = headerName? line := by
  rw [Line.dropReturn]
  rcases Text.dropReturn_cases line.toList with h | h
  · rw [h, String.ofList_toList]
  · have hline : line = String.ofList (Text.dropReturn line.toList ++ ['\r']) := by
      rw [← h, String.ofList_toList]
    rw [hline, headerName?_append_blank Text.isBlank_return, String.toList_ofList,
      Text.dropReturn_concat]

end RoutePolicy
