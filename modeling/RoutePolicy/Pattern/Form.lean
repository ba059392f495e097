import RoutePolicy.Text.Blank
import RoutePolicy.Text.Digit

/-!
# Operand forms

What may stand in one place of a statement.  Most forms are a whole word, that is a run of
characters up to the next blank or the end, with a test on the word; a `group` runs from an opening
parenthesis through the first closing one, blanks included, and `rest` is everything to the end.

`Form.read` takes one operand off the front of a text and leaves the remainder.
-/

namespace RoutePolicy

/-- What an operand looks like. -/
inductive Form where
  /-- a word of decimal digits -/
  | number
  /-- any word -/
  | word
  /-- a word without an opening parenthesis -/
  | plain
  /-- one of a few fixed words -/
  | oneOf (tokens : List String)
  /-- a text in parentheses -/
  | group
  /-- the remainder of the line -/
  | rest
deriving DecidableEq, Repr

namespace Form

/-- Whether a character belongs to a word. -/
def isSolid (c : Char) : Bool :=
  !Text.isBlank c

/-- Takes one word that passes a test. -/
def readWord (test : List Char → Bool) (cs : List Char) : Option (List Char × List Char) :=
  let w := cs.takeWhile isSolid
  if w ≠ [] ∧ test w = true then some (w, cs.dropWhile isSolid) else none

/-- Takes a text in parentheses, through the first closing one. -/
def readGroup : List Char → Option (List Char × List Char)
  | '(' :: cs =>
    match cs.dropWhile (· ≠ ')') with
    | ')' :: after => some ('(' :: cs.takeWhile (· ≠ ')') ++ [')'], after)
    | _ => none
  | _ => none

/-- Takes all that is left, if it is something and holds no line feed. -/
def readRest (cs : List Char) : Option (List Char × List Char) :=
  if cs ≠ [] ∧ '\n' ∉ cs then some (cs, []) else none

/-- Takes one operand of this form off the front of a text. -/
def read : Form → List Char → Option (List Char × List Char)
  | .number => readWord fun w => w.all Text.isDigit
  | .word => readWord fun _ => true
  | .plain => readWord fun w => !w.contains '('
  | .oneOf tokens => readWord fun w => tokens.any fun t => t.toList == w
  | .group => readGroup
  | .rest => readRest

/-! ## Nothing is lost -/

theorem readWord_append {test : List Char → Bool} {cs taken after : List Char}
    (h : readWord test cs = some (taken, after)) : taken ++ after = cs := by
  simp only [readWord] at h
  split at h
  · simp only [Option.some.injEq, Prod.mk.injEq] at h
    rw [← h.1, ← h.2, List.takeWhile_append_dropWhile]
  · simp at h

theorem readGroup_append {cs taken after : List Char}
    (h : readGroup cs = some (taken, after)) : taken ++ after = cs := by
  unfold readGroup at h
  split at h
  · rename_i cs
    split at h
    · rename_i rest hrest
      simp only [Option.some.injEq, Prod.mk.injEq] at h
      rw [← h.1, ← h.2]
      have := List.takeWhile_append_dropWhile (p := (· ≠ ')')) (l := cs)
      rw [hrest] at this
      simpa using this
    · simp at h
  · simp at h

theorem readRest_append {cs taken after : List Char}
    (h : readRest cs = some (taken, after)) : taken ++ after = cs := by
  unfold readRest at h
  split at h
  · simp only [Option.some.injEq, Prod.mk.injEq] at h
    simp [← h.1, ← h.2]
  · simp at h

/-- What was taken and what is left make up the text. -/
theorem read_append {form : Form} {cs taken after : List Char}
    (h : form.read cs = some (taken, after)) : taken ++ after = cs := by
  cases form with
  | group => exact readGroup_append h
  | rest => exact readRest_append h
  | _ =>
    simp only [read] at h
    exact readWord_append h

end Form

end RoutePolicy
