import RoutePolicy.Catalog
import RoutePolicy.Proofs.LineText

/-!
# Keywords at the front of a line

Which word a line starts with, read in three ways: as a text in front of the line (`afterText`), as
the run of characters up to the first blank, and as the first of its words (`firstWord`).

* `afterText_eq_some_iff`      a text in front of a line, and what follows it;
* `firstWord_eq_takeWhile`     the first word is the run up to the first blank;
* `starts_of_captures`         a line that a pattern reads starts with a keyword of the pattern;
* `Behind`                     a keyword, blanks, and the text that is read behind them.
-/

namespace RoutePolicy

/-! ## A text in front of a line -/

namespace Pattern

theorem afterText_append (ks after : List Char) : afterText ks (ks ++ after) = some after := by
  induction ks with
  | nil => rfl
  | cons k ks ih =>
    rw [List.cons_append, afterText, if_pos rfl, ih]

theorem afterText_eq_some_iff {ks cs after : List Char} :
    afterText ks cs = some after ↔ cs = ks ++ after := by
  constructor
  · intro h
    fun_induction afterText ks cs with
    | case1 cs => exact Option.some.inj h
    | case2 => exact absurd h (by simp)
    | case3 k ks cs ih => rw [ih h, List.cons_append]
    | case4 => exact absurd h (by simp)
  · rintro rfl
    exact afterText_append ks after

theorem afterText_isSome_iff {ks cs : List Char} :
    (afterText ks cs).isSome = true ↔ ks <+: cs := by
  rw [Option.isSome_iff_exists]
  constructor
  · rintro ⟨after, h⟩
    exact ⟨after, (afterText_eq_some_iff.mp h).symm⟩
  · rintro ⟨after, rfl⟩
    exact ⟨after, afterText_append ks after⟩

end Pattern

/-! ## The first word -/

namespace Text

/-- the text ends or goes on with a blank: a word in front of it is a whole word -/
def Separated (cs : List Char) : Prop :=
  cs.head?.all isBlank = true

theorem separated_nil : Separated [] := rfl

theorem separated_cons {c : Char} (h : isBlank c = true) (cs : List Char) : Separated (c :: cs) := h

theorem separated_dropWhile (cs : List Char) : Separated (cs.dropWhile Form.isSolid) := by
  induction cs with
  | nil => rfl
  | cons c cs ih =>
    cases h : isBlank c with
    | true =>
      rw [List.dropWhile_cons_of_neg (by simp [Form.isSolid, h])]
      exact separated_cons h cs
    | false =>
      rw [List.dropWhile_cons_of_pos (by simp [Form.isSolid, h])]
      exact ih

theorem takeWhile_separated {cs : List Char} (h : Separated cs) :
    cs.takeWhile Form.isSolid = [] := by
  cases cs with
  | nil => rfl
  | cons c cs =>
    have hc : isBlank c = true := h
    simp [Form.isSolid, hc]

/-- a run of solid characters in front of a separated text is what the run up to the first blank
takes -/
theorem takeWhile_solid_append {w after : List Char} (hw : ∀ c ∈ w, isBlank c = false)
    (ha : Separated after) : (w ++ after).takeWhile Form.isSolid = w := by
  rw [List.takeWhile_append_of_pos (by intro c hc; simp [Form.isSolid, hw c hc]),
    takeWhile_separated ha, List.append_nil]

theorem solid_of_all {w : List Char} (h : w.all Form.isSolid = true) :
    ∀ c ∈ w, isBlank c = false := by
  intro c hc
  have hsolid := List.all_eq_true.mp h c hc
  simpa [Form.isSolid] using hsolid

theorem words_ne_nil_of_solid {c : Char} (h : isBlank c = false) (cs : List Char) :
    words (c :: cs) ≠ [] := by
  rw [words, if_neg (by simp [h])]
  split
  · simp
  · cases words cs <;> simp [pushFirst]

/-- The first word of a text that does not start with a blank is the run up to the first blank. -/
theorem firstWord_eq_takeWhile {cs : List Char} (h : cs.head?.all Form.isSolid = true) :
    firstWord cs = cs.takeWhile Form.isSolid := by
  induction cs with
  | nil => rfl
  | cons c cs ih =>
    have hc : isBlank c = false := by simpa [Form.isSolid] using h
    have hsolid : Form.isSolid c = true := by simp [Form.isSolid, hc]
    rw [List.takeWhile_cons_of_pos hsolid, firstWord, words, if_neg (by simp [hc])]
    by_cases hsep : cs.head?.all isBlank = true
    · rw [if_pos hsep, takeWhile_separated hsep]
      rfl
    · rw [if_neg hsep]
      cases cs with
      | nil => exact absurd rfl hsep
      | cons d rest =>
        have hd : isBlank d = false := by simpa using hsep
        rw [← ih (by simp [Form.isSolid, hd])]
        obtain ⟨w, ws, hws⟩ := List.exists_cons_of_ne_nil (words_ne_nil_of_solid hd rest)
        rw [firstWord, hws]
        rfl

theorem firstWord_append {w after : List Char} (hw : ∀ c ∈ w, isBlank c = false) (hne : w ≠ [])
    (ha : Separated after) : firstWord (w ++ after) = w := by
  obtain ⟨c, w', rfl⟩ := List.exists_cons_of_ne_nil hne
  have hc : isBlank c = false := hw c List.mem_cons_self
  rw [firstWord_eq_takeWhile (by simp [Form.isSolid, hc]), takeWhile_solid_append hw ha]

end Text

/-! ## Words taken off a line -/

namespace Form

theorem readWord_eq_some_iff {test : List Char → Bool} {cs taken after : List Char} :
    readWord test cs = some (taken, after) ↔
      cs = taken ++ after ∧ taken ≠ [] ∧ (∀ c ∈ taken, Text.isBlank c = false) ∧
        Text.Separated after ∧ test taken = true := by
  constructor
  · intro h
    have happ := readWord_append h
    simp only [readWord] at h
    split at h
    · rename_i hw
      simp only [Option.some.injEq, Prod.mk.injEq] at h
      obtain ⟨rfl, rfl⟩ := h
      refine ⟨happ.symm, hw.1, ?_, Text.separated_dropWhile cs, hw.2⟩
      intro c hc
      have hall := List.all_eq_true.mp (List.all_takeWhile (p := isSolid) (l := cs)) c hc
      simpa [isSolid] using hall
    · simp at h
  · rintro ⟨rfl, hne, hsolid, hsep, htest⟩
    have htake := Text.takeWhile_solid_append hsolid hsep
    have hdrop : (taken ++ after).dropWhile isSolid = after := by
      have := List.takeWhile_append_dropWhile (p := isSolid) (l := taken ++ after)
      rw [htake] at this
      exact List.append_cancel_left this
    simp only [readWord, htake, hdrop]
    rw [if_pos ⟨hne, htest⟩]

end Form

/-! ## Keywords of patterns -/

namespace Pattern

/-- The texts that a line of this pattern can start with. -/
def keywords : Pattern → List String
  | .phrase head _ => head.headD []
  | .call keyword _ _ => [keyword]
  | .header keyword _ => [keyword]
  | .branch keyword _ => [keyword]
  | .opening keyword => [keyword]

/-- One keyword of a phrase is a blank and then a whole word. -/
theorem readHead_cons_eq_some {spellings : List String} {more : List (List String)}
    {cs after : List Char} (h : readHead (spellings :: more) cs = some after) :
    ∃ c rest, ∃ t ∈ spellings, cs = c :: (t.toList ++ rest) ∧ Text.isBlank c = true ∧
      (∀ d ∈ t.toList, Text.isBlank d = false) ∧ Text.Separated rest ∧
      readHead more rest = some after := by
  cases cs with
  | nil => simp [readHead] at h
  | cons c cs =>
    rw [readHead] at h
    split at h
    · rename_i hc
      split at h
      · rename_i w rest hread
        rw [Form.read] at hread
        obtain ⟨rfl, _, hsolid, hsep, htest⟩ := Form.readWord_eq_some_iff.mp hread
        obtain ⟨t, ht, hw⟩ := List.any_eq_true.mp htest
        have hw : t.toList = w := by simpa using hw
        exact ⟨c, rest, t, ht, by rw [hw], hc, by rw [hw]; exact hsolid, hsep, h⟩
      · simp at h
    · simp at h

/-- A reader that refuses a solid first character reads separated texts only. -/
theorem separated_of_read {read : List Char → Option Captures} {cs : List Char} {caps : Captures}
    (hsolid : ∀ c rest, Text.isBlank c = false → read (c :: rest) = none)
    (h : read cs = some caps) : Text.Separated cs := by
  cases cs with
  | nil => exact Text.separated_nil
  | cons c rest =>
    cases hc : Text.isBlank c with
    | true => exact Text.separated_cons hc rest
    | false => rw [hsolid c rest hc] at h; exact absurd h (by simp)

/-- A line that a pattern reads starts with a keyword of the pattern, and unless the pattern is an
`opening` the keyword is a whole word there. -/
theorem starts_of_captures {p : Pattern} {cs : List Char} {caps : Captures}
    (hne : p.keywords ≠ []) (h : p.captures cs = some caps) :
    ∃ t ∈ p.keywords, ∃ after, cs = t.toList ++ after ∧ (p = .opening t ∨ Text.Separated after) := by
  cases p with
  | phrase head operands =>
    obtain ⟨spellings, more, rfl⟩ : ∃ spellings more, head = spellings :: more := by
      cases head with
      | nil => exact absurd rfl hne
      | cons spellings more => exact ⟨spellings, more, rfl⟩
    obtain ⟨after, hhead, _⟩ := Option.bind_eq_some_iff.mp h
    obtain ⟨c, rest, t, ht, hcs, _, _, hsep, _⟩ := readHead_cons_eq_some hhead
    exact ⟨t, ht, rest, (List.cons.inj hcs).2, Or.inr hsep⟩
  | call keyword nameField argumentField =>
    obtain ⟨after, hafter, hcaps⟩ := Option.bind_eq_some_iff.mp h
    exact ⟨keyword, List.mem_singleton_self _, after, afterText_eq_some_iff.mp hafter,
      Or.inr (separated_of_read (fun c rest hc => by simp [readCall, hc]) hcaps)⟩
  | header keyword nameField =>
    obtain ⟨after, hafter, hcaps⟩ := Option.bind_eq_some_iff.mp h
    exact ⟨keyword, List.mem_singleton_self _, after, afterText_eq_some_iff.mp hafter,
      Or.inr (separated_of_read (fun c rest hc => by simp [readHeader, hc]) hcaps)⟩
  | branch keyword conditionField =>
    obtain ⟨after, hafter, hcaps⟩ := Option.bind_eq_some_iff.mp h
    exact ⟨keyword, List.mem_singleton_self _, after, afterText_eq_some_iff.mp hafter,
      Or.inr (separated_of_read (fun c rest hc => by simp [readBranch, hc]) hcaps)⟩
  | opening keyword =>
    obtain ⟨after, hafter, _⟩ := Option.map_eq_some_iff.mp h
    exact ⟨keyword, List.mem_singleton_self _, after, afterText_eq_some_iff.mp hafter, Or.inl rfl⟩

/-! ## The text behind a keyword -/

/-- The line is the keyword, blanks, and the text, which starts with no blank. -/
def Behind (keyword line text : List Char) : Prop :=
  ∃ gap, line = keyword ++ gap ++ text ∧ gap ≠ [] ∧ Text.Blanks gap ∧
    text ≠ [] ∧ Text.trimStart text = text

theorem behind_iff {keyword line text : List Char} :
    Behind keyword line text ↔ ∃ c rest, afterText keyword line = some (c :: rest) ∧
      Text.isBlank c = true ∧ Text.trimStart rest = text ∧ text ≠ [] := by
  constructor
  · rintro ⟨gap, rfl, hne, hblanks, htext, hstart⟩
    obtain ⟨c, gap, rfl⟩ := List.exists_cons_of_ne_nil hne
    have hgap : Text.Blanks gap := fun d hd => hblanks d (List.mem_cons_of_mem c hd)
    refine ⟨c, gap ++ text, ?_, hblanks c List.mem_cons_self, ?_, htext⟩
    · rw [List.append_assoc, afterText_append, List.cons_append]
    · rw [hgap.trimStart_append, hstart]
  · rintro ⟨c, rest, hafter, hc, rfl, htext⟩
    obtain ⟨gap, hgap, hsplit⟩ := Text.exists_blanks_trimStart rest
    refine ⟨c :: gap, ?_, List.cons_ne_nil c gap, ?_, htext, Text.trimStart_trimStart rest⟩
    · rw [afterText_eq_some_iff.mp hafter, List.append_assoc, List.cons_append, ← hsplit]
    · intro d hd
      rcases List.mem_cons.mp hd with rfl | hd
      · exact hc
      · exact hgap d hd

namespace Behind
variable {keyword line text : List Char} (h : Behind keyword line text)
include h

theorem head_solid : ∃ c rest, text = c :: rest ∧ Text.isBlank c = false := by
  obtain ⟨gap, _, _, _, hne, hstart⟩ := h
  obtain ⟨c, rest, rfl⟩ := List.exists_cons_of_ne_nil hne
  exact ⟨c, rest, rfl, Text.trimStart_head_solid hstart⟩

theorem trim_text (hline : Text.trim line = line) : Text.trim text = text := by
  obtain ⟨gap, rfl, _, _, _, hstart⟩ := h
  rw [Text.trim, hstart, Text.trimEnd_of_append (Text.trimEnd_of_trim hline)]

end Behind

end Pattern

end RoutePolicy
