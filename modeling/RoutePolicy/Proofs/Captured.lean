import RoutePolicy.Proofs.Keyword

/-!
# What patterns capture

Every text that a pattern captures has the form that stands at its place.

* `Takes os cs caps`       the operands `os` make up the text `cs` and write `caps`: one rule for a
                           skipped operand and one for a taken one;
* `takes_of_readOperands`  what `readOperands` finds is such a reading;
* `Form.Accepts`           the texts of a form, without the text around them;
* `captures_header_iff`, `captures_branch_iff`   how the lines of these two patterns are put together;
* `accepts_of_captures`    every captured text is accepted by a form that its pattern lists for the
                           field (`Pattern.outputs`).
-/

namespace RoutePolicy

/-! ## Readings of operands -/

/-- The operands make up the text and write these captures. -/
inductive Takes : List Operand → List Char → Captures → Prop where
  /-- no operand, no text -/
  | nil : Takes [] [] []
  /-- an operand that need not be there -/
  | skip {o : Operand} {os : List Operand} {cs : List Char} {caps : Captures} :
      o.presence ≠ .required → Takes os cs caps → Takes (o :: os) cs caps
  /-- an operand behind one blank -/
  | take {o : Operand} {os : List Operand} {c : Char} {cs taken after : List Char}
      {caps : Captures} {key : String} {form : Form} :
      Text.isBlank c = true → (key, form) ∈ o.choices → form.read cs = some (taken, after) →
      Takes os after caps → Takes (o :: os) (c :: cs) ((key, String.ofList taken) :: caps)

theorem mem_ways {o : Operand} {cs : List Char} {way : (String × String) × List Char}
    (h : way ∈ o.ways cs) :
    ∃ c rest key form taken after, cs = c :: rest ∧ Text.isBlank c = true ∧
      (key, form) ∈ o.choices ∧ form.read rest = some (taken, after) ∧
      way = ((key, String.ofList taken), after) := by
  cases cs with
  | nil => simp [Operand.ways] at h
  | cons c rest =>
    rw [Operand.ways] at h
    split at h
    · rename_i hc
      obtain ⟨⟨key, form⟩, hchoice, hread⟩ := List.mem_filterMap.mp h
      obtain ⟨⟨taken, after⟩, hread, hway⟩ := Option.map_eq_some_iff.mp hread
      exact ⟨c, rest, key, form, taken, after, rfl, hc, hchoice, hread, hway.symm⟩
    · simp at h

theorem takes_of_readOperands {os : List Operand} {cs : List Char} {caps : Captures}
    (h : readOperands os cs = some caps) : Takes os cs caps := by
  induction os generalizing cs caps with
  | nil =>
    cases cs with
    | nil =>
      rw [readOperands] at h
      rw [← Option.some.inj h]
      exact .nil
    | cons c cs => simp [readOperands] at h
  | cons o os ih =>
    -- the first way that leaves a text which the other operands make up
    have htaken : ∀ {caps : Captures},
        ((o.ways cs).findSome? fun way => (readOperands os way.2).map (way.1 :: ·)) = some caps →
        Takes (o :: os) cs caps := by
      intro caps h
      obtain ⟨way, hway, hmap⟩ := List.exists_of_findSome?_eq_some h
      obtain ⟨more, hmore, rfl⟩ := Option.map_eq_some_iff.mp hmap
      obtain ⟨c, rest, key, form, taken, after, rfl, hc, hchoice, hread, rfl⟩ := mem_ways hway
      exact .take hc hchoice hread (ih hmore)
    simp only [readOperands, Option.orElse_eq_orElse, Option.orElse_eq_or] at h
    cases hpresence : o.presence with
    | required =>
      rw [hpresence] at h
      exact htaken h
    | optional =>
      rw [hpresence] at h
      rcases Option.or_eq_some_iff.mp h with h | ⟨_, h⟩
      · exact htaken h
      · exact .skip (by simp [hpresence]) (ih h)
    | reluctant =>
      rw [hpresence] at h
      rcases Option.or_eq_some_iff.mp h with h | ⟨_, h⟩
      · exact .skip (by simp [hpresence]) (ih h)
      · exact htaken h

/-! ## The texts of a form -/

/-- The texts that an operand of this form can be. -/
def Form.Accepts : Form → List Char → Prop
  | .number, w => w ≠ [] ∧ ∀ c ∈ w, Text.isDigit c = true
  | .word, w => w ≠ [] ∧ ∀ c ∈ w, Text.isBlank c = false
  | .plain, w => w ≠ [] ∧ ∀ c ∈ w, Pattern.isNameChar c = true
  | .oneOf tokens, w => w ≠ [] ∧ ∃ t ∈ tokens, t.toList = w
  | .group, w => ∃ inner, w = '(' :: inner ++ [')'] ∧ ')' ∉ inner
  | .rest, w => w ≠ [] ∧ '\n' ∉ w

theorem Form.Accepts.ne_nil {form : Form} {w : List Char} (h : form.Accepts w) : w ≠ [] := by
  cases form with
  | group =>
    obtain ⟨inner, rfl, _⟩ := h
    simp
  | number => exact h.1
  | word => exact h.1
  | plain => exact h.1
  | oneOf tokens => exact h.1
  | rest => exact h.1

theorem Form.accepts_of_readGroup {cs taken after : List Char}
    (h : readGroup cs = some (taken, after)) : Form.group.Accepts taken := by
  unfold readGroup at h
  split at h
  · rename_i cs
    split at h
    · simp only [Option.some.injEq, Prod.mk.injEq] at h
      refine ⟨cs.takeWhile (· ≠ ')'), h.1.symm, fun hmem => ?_⟩
      have hall := List.all_eq_true.mp (List.all_takeWhile (p := (· ≠ ')')) (l := cs)) _ hmem
      simp at hall
    · simp at h
  · simp at h

theorem Form.accepts_of_read {form : Form} {cs taken after : List Char}
    (h : form.read cs = some (taken, after)) : form.Accepts taken := by
  cases form with
  | number =>
    rw [read] at h
    obtain ⟨_, hne, _, _, htest⟩ := readWord_eq_some_iff.mp h
    exact ⟨hne, List.all_eq_true.mp htest⟩
  | word =>
    rw [read] at h
    obtain ⟨_, hne, hsolid, _, _⟩ := readWord_eq_some_iff.mp h
    exact ⟨hne, hsolid⟩
  | plain =>
    rw [read] at h
    obtain ⟨_, hne, hsolid, _, htest⟩ := readWord_eq_some_iff.mp h
    refine ⟨hne, fun c hc => ?_⟩
    have hopen : c ≠ '(' := by
      rintro rfl
      simp [hc] at htest
    simp [Pattern.isNameChar, isSolid, hsolid c hc, hopen]
  | oneOf tokens =>
    rw [read] at h
    obtain ⟨_, hne, _, _, htest⟩ := readWord_eq_some_iff.mp h
    obtain ⟨t, ht, hw⟩ := List.any_eq_true.mp htest
    exact ⟨hne, t, ht, by simpa using hw⟩
  | group => exact accepts_of_readGroup h
  | rest =>
    simp only [read, readRest] at h
    split at h
    · rename_i hcs
      simp only [Option.some.injEq, Prod.mk.injEq] at h
      exact h.1 ▸ hcs
    · simp at h

theorem Takes.accepts {os : List Operand} {cs : List Char} {caps : Captures}
    (h : Takes os cs caps) : ∀ entry ∈ caps, ∃ o ∈ os, ∃ form,
      (entry.1, form) ∈ o.choices ∧ form.Accepts entry.2.toList := by
  induction h with
  | nil => exact fun entry hentry => absurd hentry (by simp)
  | skip _ _ ih =>
    intro entry hentry
    obtain ⟨o, ho, rest⟩ := ih entry hentry
    exact ⟨o, List.mem_cons_of_mem _ ho, rest⟩
  | take _ hchoice hread _ ih =>
    intro entry hentry
    rcases List.mem_cons.mp hentry with rfl | hentry
    · exact ⟨_, List.mem_cons_self, _, hchoice, by simpa using Form.accepts_of_read hread⟩
    · obtain ⟨o, ho, rest⟩ := ih entry hentry
      exact ⟨o, List.mem_cons_of_mem _ ho, rest⟩

/-! ## The fields of a pattern -/

namespace Pattern

/-- The fields that a pattern can write, each with the forms of its texts. -/
def outputs : Pattern → List (String × Form)
  | .phrase _ operands => operands.flatMap Operand.choices
  | .call _ nameField argumentField => [(nameField, .plain), (argumentField, .rest)]
  | .header _ nameField => [(nameField, .plain)]
  | .branch _ conditionField => [(conditionField, .rest)]
  | .opening _ => []

theorem accepts_takeWhile_isNameChar {cs : List Char} (h : cs.takeWhile isNameChar ≠ []) :
    Form.plain.Accepts (cs.takeWhile isNameChar) :=
  ⟨h, List.all_eq_true.mp List.all_takeWhile⟩

theorem accepts_of_readCall {nameField argumentField : String} {cs : List Char} {caps : Captures}
    (h : readCall nameField argumentField cs = some caps) :
    ∀ entry ∈ caps, ∃ form, (entry.1, form) ∈ [(nameField, Form.plain), (argumentField, .rest)] ∧
      form.Accepts entry.2.toList := by
  cases cs with
  | nil => simp [readCall] at h
  | cons c cs =>
    simp only [readCall] at h
    split at h
    · simp at h
    · rename_i hname
      have hname : Form.plain.Accepts (cs.takeWhile isNameChar) :=
        accepts_takeWhile_isNameChar fun hnil => hname (Or.inr hnil)
      split at h
      · rw [← Option.some.inj h]
        intro entry hentry
        rw [List.mem_singleton.mp hentry]
        exact ⟨.plain, by simp, by simpa using hname⟩
      · rename_i hne
        split at h
        · simp at h
        · rename_i hline
          rw [← Option.some.inj h]
          intro entry hentry
          rcases List.mem_cons.mp hentry with rfl | hentry
          · exact ⟨.plain, by simp, by simpa using hname⟩
          · rw [List.mem_singleton.mp hentry]
            exact ⟨.rest, by simp, by simpa using ⟨hne, hline⟩⟩

/-- A header line is the keyword, blanks, a name, and perhaps a parameter list. -/
theorem captures_header_iff {keyword field : String} {line : List Char} {caps : Captures} :
    (Pattern.header keyword field).captures line = some caps ↔
      ∃ name tail, Behind keyword.toList line (name ++ tail) ∧ Form.plain.Accepts name ∧
        (tail = [] ∨ isParameters tail = true) ∧ caps = [(field, String.ofList name)] := by
  constructor
  · intro h
    obtain ⟨after, hafter, hread⟩ := Option.bind_eq_some_iff.mp h
    cases after with
    | nil => cases hread
    | cons c rest =>
      simp only [readHeader] at hread
      split at hread
      · cases hread
      · rename_i hfit
        obtain ⟨hc, hname⟩ := not_or.mp hfit
        split at hread
        · rename_i htail
          have haccepts := accepts_takeWhile_isNameChar hname
          refine ⟨_, _, behind_iff.mpr ⟨c, rest, hafter, by simpa using hc,
            List.takeWhile_append_dropWhile.symm, ?_⟩, haccepts, htail, (Option.some.inj hread).symm⟩
          exact List.append_ne_nil_of_left_ne_nil hname _
        · cases hread
  · rintro ⟨name, tail, hbehind, ⟨hne, hchars⟩, htail, rfl⟩
    obtain ⟨c, rest, hafter, hc, hrest, _⟩ := behind_iff.mp hbehind
    -- a parameter list starts with no character of a name
    have hstop : tail.takeWhile isNameChar = [] ∧ tail.dropWhile isNameChar = tail := by
      cases tail with
      | nil => exact ⟨rfl, rfl⟩
      | cons d tail =>
        have hd : isNameChar d = false := by
          rcases htail with h | h
          · cases h
          · unfold isParameters at h
            split at h
            · rename_i heq
              rw [(List.cons.inj heq).1]
              decide
            · cases h
        exact ⟨List.takeWhile_cons_of_neg (by simp [hd]), List.dropWhile_cons_of_neg (by simp [hd])⟩
    show (afterText keyword.toList line).bind (readHeader field) = _
    rw [hafter, Option.bind_some]
    simp only [readHeader, hrest]
    rw [List.takeWhile_append_of_pos hchars, List.dropWhile_append_of_pos hchars, hstop.1, hstop.2,
      List.append_nil, if_neg (by simp [hc, hne]), if_pos htail]

/-- A branch line is the keyword, blanks, and a text that the condition is read from. -/
theorem captures_branch_iff {keyword field : String} {line : List Char} {caps : Captures} :
    (Pattern.branch keyword field).captures line = some caps ↔
      ∃ text, Behind keyword.toList line text ∧ Form.rest.Accepts (dropThen text) ∧
        caps = [(field, String.ofList (dropThen text))] := by
  constructor
  · intro h
    obtain ⟨after, hafter, hread⟩ := Option.bind_eq_some_iff.mp h
    cases after with
    | nil => cases hread
    | cons c rest =>
      simp only [readBranch] at hread
      split at hread
      · cases hread
      · rename_i hfit
        obtain ⟨hc, hcondition⟩ := not_or.mp hfit
        obtain ⟨hne, hnewline⟩ := not_or.mp hcondition
        have htext : Text.trimStart rest ≠ [] := fun hnil => hne (by rw [hnil]; rfl)
        exact ⟨_, behind_iff.mpr ⟨c, rest, hafter, by simpa using hc, rfl, htext⟩,
          ⟨hne, hnewline⟩, (Option.some.inj hread).symm⟩
  · rintro ⟨text, hbehind, ⟨hne, hnewline⟩, rfl⟩
    obtain ⟨c, rest, hafter, hc, rfl, _⟩ := behind_iff.mp hbehind
    show (afterText keyword.toList line).bind (readBranch field) = _
    rw [hafter, Option.bind_some, readBranch, if_neg (by simp [hc, hne, hnewline])]

/-- Every text that a pattern captures is one that the pattern lists for its field. -/
theorem accepts_of_captures {p : Pattern} {cs : List Char} {caps : Captures}
    (h : p.captures cs = some caps) :
    ∀ entry ∈ caps, ∃ form, (entry.1, form) ∈ p.outputs ∧ form.Accepts entry.2.toList := by
  cases p with
  | phrase head operands =>
    obtain ⟨after, _, hread⟩ := Option.bind_eq_some_iff.mp h
    intro entry hentry
    obtain ⟨o, ho, form, hchoice, haccepts⟩ := (takes_of_readOperands hread).accepts entry hentry
    exact ⟨form, List.mem_flatMap.mpr ⟨o, ho, hchoice⟩, haccepts⟩
  | call keyword nameField argumentField =>
    obtain ⟨after, _, hread⟩ := Option.bind_eq_some_iff.mp h
    exact accepts_of_readCall hread
  | header keyword nameField =>
    obtain ⟨name, _, _, haccepts, _, rfl⟩ := captures_header_iff.mp h
    intro entry hentry
    rw [List.mem_singleton.mp hentry]
    exact ⟨.plain, List.mem_singleton_self _, by simpa using haccepts⟩
  | branch keyword conditionField =>
    obtain ⟨text, _, haccepts, rfl⟩ := captures_branch_iff.mp h
    intro entry hentry
    rw [List.mem_singleton.mp hentry]
    exact ⟨.rest, List.mem_singleton_self _, by simpa using haccepts⟩
  | opening keyword =>
    obtain ⟨after, _, rfl⟩ := Option.map_eq_some_iff.mp h
    exact fun entry hentry => absurd hentry (by simp)

end Pattern

/-! ## The fields of a line -/

theorem Entries.mem_of_get? {α : Type} {key : String} {v : α} {entries : List (String × α)}
    (h : Entries.get? key entries = some v) : (key, v) ∈ entries := by
  induction entries with
  | nil => simp at h
  | cons e rest ih =>
    obtain ⟨k, w⟩ := e
    rw [Entries.get?] at h
    split at h
    · rename_i hk
      rw [← Option.some.inj h, ← hk]
      exact List.mem_cons_self
    · exact List.mem_cons_of_mem _ (ih h)

/-- What a field gives is a captured text, or a truth value. -/
theorem Field.value?_read {field : Field} {caps : Captures} {v : Value}
    (h : (field.read caps).value? = some v) :
    (∃ s, field.slot = .text ∧ (field.key, s) ∈ caps ∧ v = .str s) ∨
      ∃ b, field.slot ≠ .text ∧ v = .bool b := by
  cases hslot : field.slot with
  | text =>
    cases hget : Entries.get? field.key caps with
    | none => simp [Field.read, hslot, hget, FieldValue.value?] at h
    | some s =>
      simp only [Field.read, hslot, hget, FieldValue.value?] at h
      exact .inl ⟨s, rfl, Entries.mem_of_get? hget, (Option.some.inj h).symm⟩
  | flag =>
    simp only [Field.read, hslot, FieldValue.value?] at h
    exact .inr ⟨_, by simp, (Option.some.inj h).symm⟩
  | on =>
    simp only [Field.read, hslot, FieldValue.value?] at h
    exact .inr ⟨_, by simp, (Option.some.inj h).symm⟩

end RoutePolicy
