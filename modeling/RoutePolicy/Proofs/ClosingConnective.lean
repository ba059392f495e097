import RoutePolicy.Proofs.ClosedReading
import RoutePolicy.Proofs.Layout

/-!
# The connective that closes a clause

Every rule for clauses reads the connective last, as an optional word.  In a clause that ends with
a connective the word is read as such, and the keywords and the other fields make up the text
before it (`closedBy_or_nextHop`); and a connective put behind a clause that has none changes no
other field (`recognize_attach`).

The rule for `next-hop` is the exception to the first.  Its set has to be there and may be any
word, so with nothing between `in` and a final `and` the set is that word, and the clause has no
connective.
-/

namespace RoutePolicy

/-! ## The last word of a line -/

namespace Text

theorem exists_lastBlank {cs : List Char} (h : ∃ c ∈ cs, isBlank c = true) :
    ∃ front b tail, cs = front ++ b :: tail ∧ isBlank b = true ∧ ∀ c ∈ tail, isBlank c = false := by
  induction cs with
  | nil =>
    obtain ⟨c, hc, _⟩ := h
    exact absurd hc List.not_mem_nil
  | cons c cs ih =>
    by_cases hcs : ∃ d ∈ cs, isBlank d = true
    · obtain ⟨front, b, tail, rfl, hb, htail⟩ := ih hcs
      exact ⟨c :: front, b, tail, rfl, hb, htail⟩
    · have hsolid : ∀ d ∈ cs, isBlank d = false := by
        intro d hd
        cases hblank : isBlank d with
        | false => rfl
        | true => exact absurd ⟨d, hd, hblank⟩ hcs
      obtain ⟨d, hd, hblank⟩ := h
      rcases List.mem_cons.mp hd with rfl | hd
      · exact ⟨[], d, cs, rfl, hblank, hsolid⟩
      · exact absurd ⟨d, hd, hblank⟩ hcs

/-- A line that does not end with a blank ends with its last word, and a blank stands before it, if
only the one that the keywords are read behind. -/
theorem eq_append_of_getLast?_words {line k : List Char} (htrim : trimEnd line = line)
    (hlast : (words line).getLast? = some k) :
    ∃ front b, isBlank b = true ∧ ' ' :: line = front ++ b :: k := by
  have hblank : ∃ c ∈ ' ' :: line, isBlank c = true := ⟨' ', List.mem_cons_self, isBlank_space⟩
  obtain ⟨front, b, tail, hsplit, hb, htail⟩ := exists_lastBlank hblank
  by_cases hne : tail = []
  · subst hne
    cases front with
    | nil =>
      obtain ⟨_, rfl⟩ := List.cons.inj hsplit
      exact absurd hlast (by simp)
    | cons c front =>
      have hline : line = front ++ [b] := (List.cons.inj hsplit).2
      rw [hline] at htrim
      rw [isBlank_last htrim] at hb
      cases hb
  · have hwords : words line = words front ++ [tail] := by
      rw [← words_word ⟨hne, htail⟩, ← words_append hb, ← hsplit, words, if_pos isBlank_space]
    rw [hwords, List.getLast?_concat] at hlast
    obtain rfl := Option.some.inj hlast
    exact ⟨front, b, hb, hsplit⟩

end Text

/-! ## Clauses with a closing connective -/

/-- The rule whose set has to be there. -/
def Catalog.nextHop : Rule :=
  clause "next_hop" [["next-hop"], ["in"]] [(.required, "input_name", setForms)]

theorem nextHop_mem : Catalog.nextHop ∈ Catalog.conditions := by
  decide +kernel

theorem conditions_leave : ∀ rule ∈ Catalog.conditions,
    (∀ o ∈ rule.operands, o.isBounded = true) ∧
      (leavesConnective rule.operands = true ∨ rule = Catalog.nextHop) := by
  decide +kernel

section
variable {b : Char} (hb : Text.isBlank b = true) {k : List Char}
  (hk : Condition.isConnective k = true)
include hb hk

/-- The closing word goes to the connective, unless it is all there is for a set that has to be
there. -/
theorem readOperands_conditions {rule : Rule} (hrule : rule ∈ Catalog.conditions) {cs : List Char}
    (hset : rule = Catalog.nextHop → cs ≠ []) :
    readOperands (rule.operands ++ [Catalog.connective]) (cs ++ b :: k)
      = (readOperands rule.operands cs).map (· ++ [("combine_condition", String.ofList k)]) := by
  obtain ⟨hbounded, hleaves | hnext⟩ := conditions_leave rule hrule
  · exact readOperands_closed hb hk hbounded hleaves cs
  · subst hnext
    refine readOperands_closed_cons hb hk (by decide) (fun cs => ?_) (hset rfl)
    exact readOperands_closed hb hk (by simp) rfl cs

theorem readOperands_nextHop :
    readOperands (Catalog.nextHop.operands ++ [Catalog.connective]) (b :: k)
      = some [("input_name", String.ofList k)] := by
  show readTaken (.single .required "input_name" Catalog.setForms) [Catalog.connective] (b :: k) = _
  rw [readTaken, Operand.ways, if_pos hb]
  rcases Condition.isConnective_iff.mp hk with rfl | rfl <;> rfl

end

theorem words_ne_nil_of_nextHop {cs : List Char} {caps : Captures}
    (h : readOperands Catalog.nextHop.operands cs = some caps) : Text.words cs ≠ [] := by
  have htaken : readTaken (.single .required "input_name" Catalog.setForms) [] cs = some caps := h
  obtain ⟨way, hway, _⟩ := List.exists_of_findSome?_eq_some htaken
  obtain ⟨c, rest, key, form, taken, after, rfl, _, hchoice, hread, _⟩ := mem_ways hway
  have hchoice : (key, form) ∈ [("input_name", Form.group), ("input_name", Form.word)] := hchoice
  -- a list in parentheses starts with one, and a name has no blanks
  have hsolid : ∃ d ∈ taken, Text.isBlank d = false := by
    have haccepts := Form.accepts_of_read hread
    simp only [List.mem_cons, Prod.mk.injEq, List.not_mem_nil, or_false] at hchoice
    rcases hchoice with ⟨_, rfl⟩ | ⟨_, rfl⟩
    · obtain ⟨inner, rfl, _⟩ := haccepts
      exact ⟨'(', List.mem_cons_self, Text.isBlank_open⟩
    · obtain ⟨d, taken, rfl⟩ := List.exists_cons_of_ne_nil haccepts.1
      exact ⟨d, List.mem_cons_self, haccepts.2 d List.mem_cons_self⟩
  obtain ⟨d, hd, hblank⟩ := hsolid
  intro hnil
  have hmem : d ∈ (c :: rest).filter fun d => !Text.isBlank d := by
    rw [List.mem_filter, ← Form.read_append hread, hblank]
    exact ⟨List.mem_cons_of_mem c (List.mem_append_left after hd), rfl⟩
  rw [← Text.flatten_words, hnil] at hmem
  exact absurd hmem List.not_mem_nil

theorem words_eq_nextHop_iff {rule : Rule} (hrule : rule ∈ Catalog.conditions) {b : Char}
    (hb : Text.isBlank b = true) {k : List Char} (hk : Condition.isConnective k = true)
    {front cs : List Char} {caps : Captures}
    (hhead : Pattern.readHead rule.head front = some cs)
    (hread : readOperands (rule.operands ++ [Catalog.connective]) (cs ++ b :: k) = some caps) :
    Text.words (front ++ b :: k) = ["next-hop".toList, "in".toList, k]
      ↔ rule = Catalog.nextHop ∧ cs = [] := by
  have hsingle : ∀ ts ∈ Pattern.spelledHeads Catalog.nextHop.head, ts = ["next-hop", "in"] := by
    decide
  obtain ⟨ts, hts, hwords, _⟩ := Pattern.exists_spelled (conditions_keywords rule hrule).2 hhead
  rw [Text.words_append hb, Text.words_word (Condition.isWord_connective hk), hwords]
  constructor
  · intro h
    have hcut : (ts.map String.toList ++ Text.words cs) ++ [k]
        = ["next-hop", "in"].map String.toList ++ [k] := h
    have hfront := List.append_cancel_right hcut
    have hrule' : rule = Catalog.nextHop := by
      by_contra hne
      have hinj : Function.Injective String.toList := fun _ _ h => String.toList_injective h
      have hapart := conditions_apart.forall hrule nextHop_mem hne ts hts ["next-hop", "in"]
        (by decide)
      exact hapart.1 ((List.prefix_map_iff_of_injective hinj).mp ⟨_, hfront⟩)
    refine ⟨hrule', ?_⟩
    subst hrule'
    obtain rfl := hsingle ts hts
    have hnil : Text.words cs = [] := List.append_right_eq_self.mp hfront
    by_contra hne
    rw [readOperands_conditions hb hk hrule fun _ => hne] at hread
    obtain ⟨own, hown, _⟩ := Option.map_eq_some_iff.mp hread
    exact words_ne_nil_of_nextHop hown hnil
  · rintro ⟨rfl, rfl⟩
    obtain rfl := hsingle ts hts
    rfl

/-! ## The fields with and without the connective -/

namespace Entries
variable {α : Type} {key : String} {a : List (String × α)}

theorem insert_append_of_not_mem (h : key ∉ keys a) (v : α) (b : List (String × α)) :
    insert key v (a ++ b) = a ++ insert key v b := by
  induction a with
  | nil => rfl
  | cons e a ih =>
    obtain ⟨hne, hrest⟩ := not_or.mp (mt List.mem_cons.mpr h)
    rw [List.cons_append, insert, if_neg (Ne.symm hne), ih hrest]
    rfl

end Entries

/-- what a rule's fields before the last read -/
def Rule.readOwn (rule : Rule) (caps : Captures) : List (String × FieldValue) :=
  rule.ownFields.map fun field => (field.key, field.read caps)

section
variable {rule : Rule} (hrule : rule ∈ Catalog.conditions)
include hrule

theorem connective_not_mem_readOwn (caps : Captures) :
    "combine_condition" ∉ Entries.keys (rule.readOwn caps) := by
  have hnot := (conditions_closed rule hrule).2.2
  rwa [Entries.keys, Rule.readOwn, List.map_map]

theorem get?_connective (caps : Captures) (v : FieldValue) :
    Entries.get? "combine_condition" (rule.readOwn caps ++ [("combine_condition", v)])
      = some v := by
  rw [Entries.get?_append, Entries.get?_eq_none_iff.mpr (connective_not_mem_readOwn hrule caps)]
  rfl

theorem readFields_eq (caps : Captures) :
    (rule.fields.map fun field => (field.key, field.read caps))
      = rule.readOwn caps
        ++ [("combine_condition", (Field.mk "combine_condition" .text).read caps)] := by
  rw [(conditions_closed rule hrule).2.1, List.map_append]
  rfl

/-- The fields that a closing connective leaves, and the field that it fills. -/
theorem readFields_closed {cs : List Char} {own : Captures}
    (h : readOperands rule.operands cs = some own) (k : String) :
    (rule.fields.map fun field => (field.key, field.read (own ++ [("combine_condition", k)])))
      = rule.readOwn own ++ [("combine_condition", .text k)] := by
  obtain ⟨hfield, hnodup, _⟩ := conditions_fields rule hrule
  have hown : "combine_condition" ∉ Entries.keys own := by
    intro hmem
    have hkey := (takes_of_readOperands h).key_mem
      (fun o ho => hfield o (List.mem_append_left _ ho)) _ hmem
    rw [List.map_append] at hnodup
    exact (List.nodup_append.mp hnodup).2.2 _ hkey _ List.mem_cons_self rfl
  have hread : (Field.mk "combine_condition" .text).read (own ++ [("combine_condition", k)])
      = .text k := by
    rw [Field.read, Entries.get?_append, Entries.get?_eq_none_iff.mpr hown]
    rfl
  have hothers : rule.readOwn (own ++ [("combine_condition", k)]) = rule.readOwn own := by
    refine List.map_congr_left fun field hfield => ?_
    have hne : "combine_condition" ≠ field.key := by
      intro heq
      exact (conditions_closed rule hrule).2.2 (List.mem_map.mpr ⟨field, hfield, heq.symm⟩)
    have hnone : Entries.get? field.key [("combine_condition", k)] = none := if_neg hne
    rw [Field.read, Field.read, Entries.get?_append, hnone, Option.or_none]
  rw [readFields_eq hrule, hread, hothers]

end

/-- the fields other than the connective -/
def Match.ownFields (m : Match) : List (String × FieldValue) :=
  m.fields.filter fun field => field.1 ≠ "combine_condition"

theorem Rule.filter_readOwn {rule : Rule} (hrule : rule ∈ Catalog.conditions) (caps : Captures)
    (v : FieldValue) :
    ((rule.readOwn caps ++ [("combine_condition", v)]).filter fun field =>
      field.1 ≠ "combine_condition") = rule.readOwn caps := by
  rw [List.filter_append, List.filter_eq_self.mpr, List.filter_singleton]
  · exact List.append_nil _
  · intro field hfield
    rw [decide_eq_true_iff]
    intro heq
    exact connective_not_mem_readOwn hrule caps (List.mem_map.mpr ⟨field, hfield, heq⟩)

/-! ## Recognised clauses -/

/-- The fields of a clause that ends with a connective: the connective is the text of its own
field, and the other fields are texts before it. -/
def Match.ClosedBy (m : Match) (k : String) (line : List Char) : Prop :=
  m.text? "combine_condition" = some k ∧
    ∃ ts ∈ Pattern.spelledHeads m.rule.head,
      Laid (ts.map String.toList ++ fieldTexts m.ownFields ++ [k.toList]) (' ' :: line)

theorem isConnective_toList {k : String} (hk : k ∈ ["and", "or"]) :
    Condition.isConnective k.toList = true := by
  rcases List.mem_pair.mp hk with rfl | rfl <;> rfl

theorem closedBy_of_readOperands {rule : Rule} (hrule : rule ∈ Catalog.conditions)
    {line cs : List Char} {own : Captures} {m : Match} {k : String}
    (hread : readOperands rule.operands cs = some own)
    (hm : m = { rule, fields := rule.fields.map fun field =>
      (field.key, field.read (own ++ [("combine_condition", k)])) })
    (hmatch : rule.match? line = some m) : m.ClosedBy k line := by
  rw [readFields_closed hrule hread] at hm
  subst hm
  obtain ⟨ts, hts, hlaid⟩ := laid_of_match hrule hmatch
  refine ⟨?_, ts, hts, ?_⟩
  · rw [Match.text?, get?_connective hrule]
    rfl
  · rw [Match.ownFields, Rule.filter_readOwn hrule, List.append_assoc]
    rwa [fieldTexts_append] at hlaid

/-- **A closing connective is never taken for an operand, but for one clause.**  If the last word of
a recognised clause is a connective, it is read as such, and the keywords and the other fields make
up the text before it.  In `next-hop in and` alone the word is read as the set. -/
theorem closedBy_or_nextHop {clause k : String} {m : Match}
    (hm : recognize (· = .condition) clause = some m) (hk : k ∈ ["and", "or"])
    (hlast : (Text.words clause.toList).getLast? = some k.toList) :
    (Text.words clause.toList ≠ ["next-hop".toList, "in".toList, k.toList] →
      m.ClosedBy k (Text.trim clause.toList)) ∧
    (Text.words clause.toList = ["next-hop".toList, "in".toList, k.toList] →
      m.text? "input_name" = some k ∧ m.text? "combine_condition" = none) := by
  have hconnective := isConnective_toList hk
  obtain ⟨rule, hrule, hmatch⟩ := exists_condition_of_recognize hm
  obtain ⟨after, caps, hhead, hread, hfields⟩ := captures_of_match hrule hmatch
  rw [← Text.words_trim] at hlast ⊢
  obtain ⟨front, b, hb, hsplit⟩ := Text.eq_append_of_getLast?_words
    (by rw [Text.trim, Text.trimEnd_trimEnd]) hlast
  rw [hsplit, Pattern.readHead_closed hb hconnective (conditions_keywords rule hrule).2] at hhead
  obtain ⟨cs, hcs, rfl⟩ := Option.map_eq_some_iff.mp hhead
  have hwords : Text.words (Text.trim clause.toList)
      = ["next-hop".toList, "in".toList, k.toList] ↔ rule = Catalog.nextHop ∧ cs = [] := by
    rw [← words_eq_nextHop_iff hrule hb hconnective hcs hread, ← hsplit, Text.words,
      if_pos Text.isBlank_space]
  constructor
  · intro hother
    have hset : rule = Catalog.nextHop → cs ≠ [] := fun hnext hnil =>
      hother (hwords.mpr ⟨hnext, hnil⟩)
    rw [readOperands_conditions hb hconnective hrule hset, String.ofList_toList] at hread
    obtain ⟨own, hown, rfl⟩ := Option.map_eq_some_iff.mp hread
    exact closedBy_of_readOperands hrule hown hfields hmatch
  · intro hnext
    obtain ⟨rfl, rfl⟩ := hwords.mp hnext
    rw [List.nil_append, readOperands_nextHop hb hconnective, String.ofList_toList] at hread
    obtain rfl := Option.some.inj hread
    subst hfields
    exact ⟨rfl, rfl⟩

theorem closedBy_nextHop_setAnd :
    ∃ m, recognize (· = .condition) "next-hop in and or" = some m ∧
      m.text? "input_name" = some "and" ∧
      m.ClosedBy "or" (Text.trim "next-hop in and or".toList) := by
  have hm : recognize (· = .condition) "next-hop in and or"
      = some ⟨Catalog.nextHop,
          [("input_name", .text "and"), ("combine_condition", .text "or")]⟩ := by
    decide +kernel
  exact ⟨_, hm, rfl,
    (closedBy_or_nextHop hm (by decide) (by decide +kernel)).1 (by decide +kernel)⟩

/-- The set that has to be there is the closing word. -/
theorem connective_lost_nextHop :
    (Text.words "next-hop in and".toList).getLast? = some "and".toList ∧
      ∃ m, recognize (· = .condition) "next-hop in and" = some m ∧
        m.text? "combine_condition" ≠ some "and" ∧ m.text? "input_name" = some "and" := by
  refine ⟨by decide +kernel,
    ⟨Catalog.nextHop, [("input_name", .text "and"), ("combine_condition", .absent)]⟩, ?_⟩
  decide +kernel

/-! ## Attaching a connective -/

/-- A text that starts with keywords is trimmed when it ends with a connective. -/
theorem Pattern.trim_closed {head : List (List String)} (hne : head ≠ [])
    (hproper : properHead head = true) {cs after : List Char}
    (h : readHead head (' ' :: cs) = some after) {k : List Char}
    (hk : Condition.isConnective k = true) : Text.trim (cs ++ ' ' :: k) = cs ++ ' ' :: k := by
  obtain ⟨spellings, rest, rfl⟩ := List.exists_cons_of_ne_nil hne
  obtain ⟨_, behind, t, ht, hcs, _, hsolid, _⟩ := readHead_cons_eq_some h
  obtain ⟨_, rfl⟩ := List.cons.inj hcs
  rw [properHead, List.all_cons, Bool.and_eq_true] at hproper
  have hword := List.all_eq_true.mp hproper.1 t ht
  rw [Bool.and_eq_true, decide_eq_true_iff] at hword
  have hstart := Text.trimStart_word_append ⟨hword.1, hsolid⟩ (behind ++ ' ' :: k)
  have hend := Text.trimEnd_append_word (Condition.isWord_connective hk)
    (t.toList ++ (behind ++ [' ']))
  rw [Text.trim, List.append_assoc, hstart]
  simpa using hend

theorem readFields_attach {rule : Rule} (hrule : rule ∈ Catalog.conditions) {cs : List Char}
    {own : Captures} (h : readOperands rule.operands cs = some own) (k : String) :
    (rule.fields.map fun field => (field.key, field.read (own ++ [("combine_condition", k)])))
      = Entries.insert "combine_condition" (.text k)
          (rule.fields.map fun field => (field.key, field.read own)) := by
  rw [readFields_closed hrule h, readFields_eq hrule,
    Entries.insert_append_of_not_mem (connective_not_mem_readOwn hrule own)]
  rfl

theorem not_mem_of_text?_eq_none {rule : Rule} (hrule : rule ∈ Catalog.conditions) {caps : Captures}
    (h : (Match.mk rule (rule.fields.map fun field => (field.key, field.read caps))).text?
      "combine_condition" = none) : "combine_condition" ∉ Entries.keys caps := by
  rw [readFields_eq hrule, Match.text?, get?_connective hrule, Option.bind_some, Field.text?_read,
    if_pos rfl] at h
  exact Entries.get?_eq_none_iff.mp h

/-- **Attaching a connective changes nothing else.**  A clause that a rule reads without a
connective is recognised by the same rule with one behind it; the fields are the same but for the
connective's own. -/
theorem recognize_attach {rule : Rule} (hrule : rule ∈ catalog)
    (hclass : rule.lineClass = .condition) {clause : String} {m : Match}
    (hmatch : rule.match? clause.toList = some m) (habsent : m.text? "combine_condition" = none)
    {k : String} (hk : k ∈ ["and", "or"]) :
    recognize (· = .condition) (clause ++ " " ++ k)
      = some { rule, fields := Entries.insert "combine_condition" (.text k) m.fields } := by
  have hconnective := isConnective_toList hk
  have hrule := mem_conditions.mpr ⟨hrule, hclass⟩
  obtain ⟨hne, hproper⟩ := conditions_keywords rule hrule
  obtain ⟨after, caps, hhead, hread, rfl⟩ := captures_of_match hrule hmatch
  have hnot := not_mem_of_text?_eq_none hrule habsent
  have hown : readOperands rule.operands after = some caps :=
    (readOperands_unclosed rule.operands after).2 caps hread hnot
  have hset : rule = Catalog.nextHop → after ≠ [] := by
    rintro rfl rfl
    have hnone : readOperands Catalog.nextHop.operands [] = none := rfl
    exact absurd (hown.symm.trans hnone) (by simp)
  have hhead' := Pattern.readHead_closed Text.isBlank_space hconnective hproper
    (' ' :: clause.toList)
  have hread' := readOperands_conditions Text.isBlank_space hconnective hrule hset
  rw [hhead] at hhead'
  rw [hown, String.ofList_toList] at hread'
  have htrim : Text.trim (clause ++ " " ++ k).toList = clause.toList ++ ' ' :: k.toList := by
    rw [String.toList_append, String.toList_append, List.append_assoc]
    exact Pattern.trim_closed hne hproper hhead hconnective
  rw [← readFields_attach hrule hown]
  apply recognize_of_match hrule
  rw [htrim]
  exact match_of_captures hrule hhead' hread'

theorem recognize_attach_missingSet :
    (Catalog.membership "as_path" ["as-path", "in"]).match? "as-path in".toList
        = some ⟨Catalog.membership "as_path" ["as-path", "in"],
            [("input_name", .absent), ("combine_condition", .absent)]⟩ ∧
      recognize (· = .condition) ("as-path in" ++ " " ++ "or")
        = some ⟨Catalog.membership "as_path" ["as-path", "in"],
            [("input_name", .absent), ("combine_condition", .text "or")]⟩ := by
  have hmatch : (Catalog.membership "as_path" ["as-path", "in"]).match? "as-path in".toList
      = some ⟨Catalog.membership "as_path" ["as-path", "in"],
          [("input_name", .absent), ("combine_condition", .absent)]⟩ := by
    decide +kernel
  exact ⟨hmatch, recognize_attach (by decide +kernel) rfl hmatch rfl (by decide)⟩

end RoutePolicy
