import RoutePolicy.Text.Blank

/-!
# Trimming

`trim` drops the blank characters at both ends of a text and nothing else.  Statements are compared
in trimmed form, so the indentation of a configuration never matters to them.

* `trimStart_cons_blank`, `trimEnd_append_blank`   a blank at an end is dropped;
* `trimStart_cons_solid`, `trimEnd_append_solid`   any other character there stays;
* `trim_trim`                                      a trimmed text stays as it is.
-/

namespace RoutePolicy.Text

/-- The text from its first character that is not blank. -/
def trimStart (cs : List Char) : List Char :=
  cs.dropWhile isBlank

/-- The text up to its last character that is not blank. -/
def trimEnd (cs : List Char) : List Char :=
  (cs.reverse.dropWhile isBlank).reverse

/-- The text between its outermost characters that are not blank. -/
def trim (cs : List Char) : List Char :=
  trimEnd (trimStart cs)

/-! ## Both ends -/

@[simp] theorem trimStart_nil : trimStart [] = [] := rfl

@[simp] theorem trimEnd_nil : trimEnd [] = [] := rfl

@[simp] theorem trim_nil : trim [] = [] := rfl

theorem trimStart_cons_blank {c : Char} (h : isBlank c = true) (cs : List Char) :
    trimStart (c :: cs) = trimStart cs := by
  simp [trimStart, h]

theorem trimStart_cons_solid {c : Char} (h : isBlank c = false) (cs : List Char) :
    trimStart (c :: cs) = c :: cs := by
  simp [trimStart, h]

theorem trimEnd_append_blank {c : Char} (h : isBlank c = true) (cs : List Char) :
    trimEnd (cs ++ [c]) = trimEnd cs := by
  simp [trimEnd, h]

theorem trimEnd_append_solid {c : Char} (h : isBlank c = false) (cs : List Char) :
    trimEnd (cs ++ [c]) = cs ++ [c] := by
  simp [trimEnd, h]

theorem trimStart_trimStart (cs : List Char) : trimStart (trimStart cs) = trimStart cs := by
  induction cs with
  | nil => rfl
  | cons c cs ih =>
    cases h : isBlank c with
    | true => rw [trimStart_cons_blank h, ih]
    | false => rw [trimStart_cons_solid h, trimStart_cons_solid h]

theorem trimEnd_eq_reverse (cs : List Char) : trimEnd cs = (trimStart cs.reverse).reverse := rfl

theorem trimEnd_trimEnd (cs : List Char) : trimEnd (trimEnd cs) = trimEnd cs := by
  simp [trimEnd_eq_reverse, trimStart_trimStart]

/-- Dropping blanks at the end leaves a solid first character in place. -/
theorem trimEnd_cons_solid {c : Char} (h : isBlank c = false) (cs : List Char) :
    trimEnd (c :: cs) = c :: trimEnd cs := by
  have : ∀ l : List Char, (l ++ [c]).dropWhile isBlank = l.dropWhile isBlank ++ [c] := by
    intro l
    induction l with
    | nil => simp [h]
    | cons d l ih => cases hd : isBlank d <;> simp [hd, ih]
  simp [trimEnd, this]

/-- The two ends can be trimmed in either order. -/
theorem trimStart_trim (cs : List Char) : trimStart (trim cs) = trim cs := by
  unfold trim
  cases h : trimStart cs with
  | nil => rfl
  | cons c rest =>
    have hc : isBlank c = false := by
      have := List.head?_dropWhile_not isBlank cs
      simp only [trimStart] at h
      simpa [h] using this
    rw [trimEnd_cons_solid hc, trimStart_cons_solid hc]

theorem trim_trim (cs : List Char) : trim (trim cs) = trim cs := by
  have h : trim (trim cs) = trimEnd (trim cs) := by rw [trim, trimStart_trim]
  rw [h, trim, trimEnd_trimEnd]

end RoutePolicy.Text

namespace RoutePolicy

/-- A line without the blanks around it. -/
def Line.trim (line : String) : String :=
  String.ofList (Text.trim line.toList)

@[simp] theorem Line.toList_trim (line : String) :
    (Line.trim line).toList = Text.trim line.toList := by
  simp [Line.trim]

theorem Line.trim_trim (line : String) : Line.trim (Line.trim line) = Line.trim line := by
  simp [Line.trim, Text.trim_trim]

end RoutePolicy
