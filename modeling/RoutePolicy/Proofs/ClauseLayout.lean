import Mathlib.Data.List.Basic
import Mathlib.Data.List.Infix
import Mathlib.Data.List.Pairwise
import RoutePolicy.Proofs.ConditionGrammar

/-!
# How a clause is laid out

A recognised clause is nothing but the keywords of its rule and the texts of its fields, in the
order of the fields, each behind one blank character (`laid_of_match`).  And the keywords of two
rules never stand in front of the same line, so at most one rule reads a clause
(`recognize_of_match`).

The rules for clauses enter through facts about their table, each found by evaluation: every rule
is a phrase that ends with the optional connective (`conditions_closed`), its operands write its
fields in order (`conditions_fields`), it has keywords, which are words and no connectives
(`conditions_keywords`), and the keywords of different rules differ (`conditions_apart`).
-/

namespace RoutePolicy

/-! ## Texts in a row -/

/-- Texts one after the other, each behind one blank character. -/
inductive Laid : List (List Char) → List Char → Prop where
  | nil : Laid [] []
  | cons {b : Char} {t : List Char} {ts : List (List Char)} {cs : List Char} :
      Text.isBlank b = true → Laid ts cs → Laid (t :: ts) (b :: (t ++ cs))

theorem Takes.laid {os : List Operand} {cs : List Char} {caps : Captures} (h : Takes os cs caps) :
    Laid (caps.map fun entry => entry.2.toList) cs := by
  induction h with
  | nil => exact .nil
  | skip _ _ ih => exact ih
  | take hc _ hread _ ih =>
    rw [← Form.read_append hread, List.map_cons, String.toList_ofList]
    exact .cons hc ih

theorem Text.words_word_append {w cs : List Char} (hw : IsWord w) (h : Separated cs) :
    words (w ++ cs) = w :: words cs := by
  cases cs with
  | nil => rw [List.append_nil, words_word hw, words_nil]
  | cons b cs =>
    have hb : isBlank b = true := h
    rw [words_append hb, words_word hw, words, if_pos hb]
    rfl

/-- keywords that are words and no connectives -/
def Pattern.properHead (head : List (List String)) : Bool :=
  head.all fun spellings => spellings.all fun t =>
    t.toList ≠ [] && !Condition.isConnective t.toList

/-- The keywords of a line are one spelling of them, in a row, and the first words of the line. -/
theorem Pattern.exists_spelled {head : List (List String)} (hproper : properHead head = true)
    {cs after : List Char} (h : readHead head cs = some after) :
    ∃ ts ∈ spelledHeads head, Text.words cs = ts.map String.toList ++ Text.words after ∧
      ∀ texts, Laid texts after → Laid (ts.map String.toList ++ texts) cs := by
  induction head generalizing cs with
  | nil =>
    obtain rfl := Option.some.inj h
    exact ⟨[], List.mem_singleton_self _, rfl, fun _ hlaid => hlaid⟩
  | cons spellings more ih =>
    rw [properHead, List.all_cons, Bool.and_eq_true] at hproper
    obtain ⟨c, rest, t, ht, rfl, hc, hsolid, hsep, hmore⟩ := readHead_cons_eq_some h
    obtain ⟨ts, hts, hwords, hlaid⟩ := ih hproper.2 hmore
    have hne : t.toList ≠ [] := by
      have := List.all_eq_true.mp hproper.1 t ht
      simp only [Bool.and_eq_true, decide_eq_true_eq] at this
      exact this.1
    refine ⟨t :: ts, List.mem_flatMap.mpr ⟨t, ht, List.mem_map.mpr ⟨ts, hts, rfl⟩⟩, ?_, ?_⟩
    · rw [Text.words, if_pos hc, Text.words_word_append ⟨hne, hsolid⟩ hsep, hwords]
      rfl
    · intro texts htexts
      exact .cons hc (hlaid texts htexts)

/-! ## The table of clauses -/

namespace Rule

/-- the keywords of a phrase -/
def head (rule : Rule) : List (List String) :=
  match rule.pattern with
  | .phrase head _ => head
  | _ => []

/-- the operands of a phrase before the last -/
def operands (rule : Rule) : List Operand :=
  match rule.pattern with
  | .phrase _ operands => operands.dropLast
  | _ => []

/-- the fields before the last -/
def ownFields (rule : Rule) : List Field :=
  rule.fields.dropLast

end Rule

/-- the field that an operand writes -/
def Operand.field (o : Operand) : String :=
  (o.choices.head?.map Prod.fst).getD ""

theorem mem_conditions {rule : Rule} :
    rule ∈ Catalog.conditions ↔ rule ∈ catalog ∧ rule.lineClass = .condition := by
  have hfilter : Catalog.conditions = catalog.filter fun rule => rule.lineClass = .condition :=
    ofClass_eq_filter .condition
  rw [hfilter, List.mem_filter, decide_eq_true_eq]

theorem conditions_closed : ∀ rule ∈ Catalog.conditions,
    rule.pattern = .phrase rule.head (rule.operands ++ [Catalog.connective]) ∧
      rule.fields = rule.ownFields ++ [⟨"combine_condition", .text⟩] ∧
      "combine_condition" ∉ rule.ownFields.map Field.key := by
  decide +kernel

theorem conditions_fields : ∀ rule ∈ Catalog.conditions,
    (∀ o ∈ rule.operands ++ [Catalog.connective], ∀ choice ∈ o.choices, choice.1 = o.field) ∧
      ((rule.operands ++ [Catalog.connective]).map Operand.field).Nodup ∧
      (rule.fields.filter fun field => field.slot = .text).map Field.key
        = (rule.operands ++ [Catalog.connective]).map Operand.field := by
  decide +kernel

theorem conditions_keywords : ∀ rule ∈ Catalog.conditions,
    rule.head ≠ [] ∧ Pattern.properHead rule.head = true := by
  decide +kernel

/-- No keywords of one rule start with the keywords of the other. -/
def Rule.Apart (a b : Rule) : Prop :=
  ∀ ts ∈ Pattern.spelledHeads a.head, ∀ us ∈ Pattern.spelledHeads b.head,
    ¬ ts <+: us ∧ ¬ us <+: ts

instance (a b : Rule) : Decidable (a.Apart b) :=
  inferInstanceAs (Decidable (∀ ts ∈ Pattern.spelledHeads a.head, _))

instance : Std.Symm Rule.Apart where
  symm _ _ h ts hts us hus := (h us hus ts hts).symm

theorem conditions_apart : Catalog.conditions.Pairwise Rule.Apart := by
  decide +kernel

/-! ## The texts of the fields -/

/-- The texts that fields hold, in order. -/
def fieldTexts (fields : List (String × FieldValue)) : List (List Char) :=
  fields.filterMap fun field => field.2.text?.map String.toList

theorem fieldTexts_append (a b : List (String × FieldValue)) :
    fieldTexts (a ++ b) = fieldTexts a ++ fieldTexts b :=
  List.filterMap_append

theorem Field.text?_read (field : Field) (caps : Captures) :
    (field.read caps).text?
      = if field.slot = .text then Entries.get? field.key caps else none := by
  unfold Field.read
  cases hslot : field.slot with
  | text =>
    rw [if_pos rfl]
    cases Entries.get? field.key caps <;> rfl
  | flag => rfl
  | on => rfl

/-- Fields read the captures of their keys, and what is no text gives none. -/
theorem fieldTexts_read (fields : List Field) (caps : Captures) :
    fieldTexts (fields.map fun field => (field.key, field.read caps))
      = ((fields.filter fun field => field.slot = .text).map Field.key).filterMap
          fun key => (Entries.get? key caps).map String.toList := by
  induction fields with
  | nil => rfl
  | cons field fields ih =>
    rw [fieldTexts] at ih ⊢
    rw [List.map_cons, List.filterMap_cons, ih, List.filter_cons]
    by_cases hslot : field.slot = .text
    · rw [field.text?_read, if_pos hslot, if_pos (by simpa using hslot), List.map_cons,
        List.filterMap_cons]
    · rw [field.text?_read, if_neg hslot, if_neg (by simpa using hslot)]
      rfl

theorem Takes.key_mem {os : List Operand} {cs : List Char} {caps : Captures}
    (h : Takes os cs caps) (hfield : ∀ o ∈ os, ∀ choice ∈ o.choices, choice.1 = o.field) :
    ∀ key ∈ Entries.keys caps, key ∈ os.map Operand.field := by
  intro key hkey
  obtain ⟨entry, hentry, rfl⟩ := List.mem_map.mp hkey
  obtain ⟨o, ho, form, hchoice, _⟩ := h.accepts entry hentry
  exact List.mem_map.mpr ⟨o, ho, (hfield o ho _ hchoice).symm⟩

/-- Operands that write one field each, all different, are looked up in the order in which they
stand. -/
theorem Takes.filterMap_get? {os : List Operand} {cs : List Char} {caps : Captures}
    (h : Takes os cs caps) (hfield : ∀ o ∈ os, ∀ choice ∈ o.choices, choice.1 = o.field)
    (hnodup : (os.map Operand.field).Nodup) :
    (os.map Operand.field).filterMap (fun key => (Entries.get? key caps).map String.toList)
      = caps.map fun entry => entry.2.toList := by
  induction h with
  | nil => rfl
  | @skip o os cs caps _ hos ih =>
    have hfield' : ∀ o ∈ os, ∀ choice ∈ o.choices, choice.1 = o.field := fun o' ho' =>
      hfield o' (List.mem_cons_of_mem _ ho')
    obtain ⟨hnot, hnodup'⟩ := List.nodup_cons.mp hnodup
    have hnone : Entries.get? o.field caps = none :=
      Entries.get?_eq_none_iff.mpr fun hkey => hnot (hos.key_mem hfield' _ hkey)
    rw [List.map_cons, List.filterMap_cons, hnone]
    exact ih hfield' hnodup'
  | @take o os c cs taken after caps key form _ hchoice _ hos ih =>
    have hfield' : ∀ o ∈ os, ∀ choice ∈ o.choices, choice.1 = o.field := fun o' ho' =>
      hfield o' (List.mem_cons_of_mem _ ho')
    obtain ⟨hnot, hnodup'⟩ := List.nodup_cons.mp hnodup
    have hkey : key = o.field := hfield o List.mem_cons_self _ hchoice
    subst hkey
    have hself : Entries.get? o.field ((o.field, String.ofList taken) :: caps)
        = some (String.ofList taken) := by
      rw [Entries.get?, if_pos rfl]
    have hothers : ∀ key ∈ os.map Operand.field,
        (Entries.get? key ((o.field, String.ofList taken) :: caps)).map String.toList
          = (Entries.get? key caps).map String.toList := by
      intro key hmem
      rw [Entries.get?, if_neg]
      rintro rfl
      exact hnot hmem
    rw [List.map_cons, List.filterMap_cons, hself, List.filterMap_congr hothers, ih hfield' hnodup']
    rfl

/-! ## A recognised clause -/

theorem captures_of_match {rule : Rule} (hrule : rule ∈ Catalog.conditions) {cs : List Char}
    {m : Match} (h : rule.match? cs = some m) :
    ∃ after caps, Pattern.readHead rule.head (' ' :: cs) = some after ∧
      readOperands (rule.operands ++ [Catalog.connective]) after = some caps ∧
      m = { rule, fields := rule.fields.map fun field => (field.key, field.read caps) } := by
  obtain ⟨caps, hcaps, rfl⟩ := Option.map_eq_some_iff.mp h
  rw [(conditions_closed rule hrule).1] at hcaps
  obtain ⟨after, hhead, hread⟩ := Option.bind_eq_some_iff.mp hcaps
  exact ⟨after, caps, hhead, hread, rfl⟩

theorem match_of_captures {rule : Rule} (hrule : rule ∈ Catalog.conditions) {cs after : List Char}
    {caps : Captures} (hhead : Pattern.readHead rule.head (' ' :: cs) = some after)
    (hread : readOperands (rule.operands ++ [Catalog.connective]) after = some caps) :
    rule.match? cs
      = some { rule, fields := rule.fields.map fun field => (field.key, field.read caps) } := by
  have hcaps : rule.pattern.captures cs = some caps := by
    rw [(conditions_closed rule hrule).1]
    show (Pattern.readHead rule.head (' ' :: cs)).bind _ = _
    rw [hhead, Option.bind_some, hread]
  rw [Rule.match?, hcaps]
  rfl

theorem exists_condition_of_recognize {clause : String} {m : Match}
    (h : recognize (· = .condition) clause = some m) :
    ∃ rule ∈ Catalog.conditions, rule.match? (Text.trim clause.toList) = some m := by
  obtain ⟨rule, hrule, hclass, hmatch⟩ := exists_of_recognize_clause h
  exact ⟨rule, mem_conditions.mpr ⟨hrule, hclass⟩, hmatch⟩

/-- A line that a rule reads is the keywords of the rule and the texts of its fields. -/
theorem laid_of_match {rule : Rule} (hrule : rule ∈ Catalog.conditions) {cs : List Char} {m : Match}
    (h : rule.match? cs = some m) :
    ∃ ts ∈ Pattern.spelledHeads rule.head,
      Laid (ts.map String.toList ++ fieldTexts m.fields) (' ' :: cs) := by
  obtain ⟨after, caps, hhead, hread, rfl⟩ := captures_of_match hrule h
  obtain ⟨ts, hts, _, hlaid⟩ := Pattern.exists_spelled (conditions_keywords rule hrule).2 hhead
  obtain ⟨hfield, hnodup, hkeys⟩ := conditions_fields rule hrule
  have htakes := takes_of_readOperands hread
  refine ⟨ts, hts, hlaid _ ?_⟩
  rw [fieldTexts_read, hkeys, htakes.filterMap_get? hfield hnodup]
  exact htakes.laid

/-- Keywords that stand in front of the same words start one another. -/
theorem Pattern.comparable_of_words {ts us : List String} {words : List (List Char)}
    (h : ts.map String.toList <+: words) (h' : us.map String.toList <+: words) :
    ts <+: us ∨ us <+: ts := by
  have hinj : Function.Injective String.toList := fun _ _ h => String.toList_injective h
  rcases List.prefix_or_prefix_of_prefix h h' with hle | hle
  · exact .inl ((List.prefix_map_iff_of_injective hinj).mp hle)
  · exact .inr ((List.prefix_map_iff_of_injective hinj).mp hle)

/-- Two rules that read the same line are the same: the keywords of one would stand in front of the
keywords of the other. -/
theorem eq_of_readHead {a b : Rule} (ha : a ∈ Catalog.conditions) (hb : b ∈ Catalog.conditions)
    {cs after after' : List Char} (h : Pattern.readHead a.head cs = some after)
    (h' : Pattern.readHead b.head cs = some after') : a = b := by
  by_contra hne
  obtain ⟨ts, hts, hwords, _⟩ := Pattern.exists_spelled (conditions_keywords a ha).2 h
  obtain ⟨us, hus, hwords', _⟩ := Pattern.exists_spelled (conditions_keywords b hb).2 h'
  have hapart := conditions_apart.forall ha hb hne ts hts us hus
  have hpre : ts.map String.toList <+: Text.words cs := ⟨_, hwords.symm⟩
  have hpre' : us.map String.toList <+: Text.words cs := ⟨_, hwords'.symm⟩
  exact (Pattern.comparable_of_words hpre hpre').elim hapart.1 hapart.2

theorem recognize_of_match {rule : Rule} (hrule : rule ∈ Catalog.conditions) {clause : String}
    {m : Match} (h : rule.match? (Text.trim clause.toList) = some m) :
    recognize (· = .condition) clause = some m := by
  obtain ⟨hmem, hclass⟩ := mem_conditions.mp hrule
  obtain ⟨caps, hcaps, _⟩ := Option.map_eq_some_iff.mp h
  have hline : LineClass.ofLine (Text.trim clause.toList) = .condition := by
    rw [ofLine_of_captures hmem hcaps, hclass]
  have hrecognize : recognize (· = .condition) clause
      = Catalog.conditions.findSome? fun rule => rule.match? (Text.trim clause.toList) := by
    simp only [recognize, hline]
    rfl
  have hsome : (Catalog.conditions.findSome? fun rule =>
      rule.match? (Text.trim clause.toList)).isSome = true := by
    rw [List.findSome?_isSome_iff]
    exact ⟨rule, hrule, by rw [h]; rfl⟩
  obtain ⟨first, hfirst⟩ := Option.isSome_iff_exists.mp hsome
  obtain ⟨other, hother, hmatch⟩ := List.exists_of_findSome?_eq_some hfirst
  obtain ⟨_, _, hhead, _, _⟩ := captures_of_match hrule h
  obtain ⟨_, _, hhead', _, _⟩ := captures_of_match hother hmatch
  obtain rfl := eq_of_readHead hrule hother hhead hhead'
  rw [hrecognize, hfirst, ← hmatch, h]

end RoutePolicy
