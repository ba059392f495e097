import RoutePolicy.Proofs.LineText
import RoutePolicy.Proofs.RuleOrder

/-!
# Recognition loses no text

The rule and the fields of a clause, an action or a setting determine its line, as long as the line
has no blanks but spaces.  What the fields do not say is which of two spellings a keyword has, and
how many spaces stand between the name and the argument of `apply` (`Variant`).

* `Takes.unique`            no two readings of the same operands write the same fields differently;
* `get?_eq_of_fields`       the fields say what every operand captured: a text field holds it, and a
                            flag stands for an operand that can be one word only;
* `Laid.eq_flatMap`         keywords and captured texts make up the line, behind single spaces.

The catalog enters through four facts about its table (`catalog_telling`, `catalog_separate`,
`catalog_spellings`, `statement_patterns`), each found by evaluation.
-/

namespace RoutePolicy

/-! ## Captures and their texts -/

/-- The fields that an operand can write. -/
def Operand.keys (o : Operand) : List String :=
  o.choices.map Prod.fst

/-- No field is written by both operands. -/
def Operand.Separate (o p : Operand) : Prop :=
  ∀ key ∈ o.keys, key ∉ p.keys

instance (o p : Operand) : Decidable (o.Separate p) :=
  inferInstanceAs (Decidable (∀ key ∈ o.keys, _))

theorem Takes.exists_key {os : List Operand} {cs : List Char} {caps : Captures} {key : String}
    (h : Takes os cs caps) (hkey : key ∈ Entries.keys caps) : ∃ o ∈ os, key ∈ o.keys := by
  obtain ⟨entry, hentry, rfl⟩ := List.mem_map.mp hkey
  obtain ⟨o, ho, form, hchoice, _⟩ := h.accepts entry hentry
  exact ⟨o, ho, List.mem_map.mpr ⟨_, hchoice, rfl⟩⟩

theorem Takes.get?_eq_none {o : Operand} {os : List Operand} {cs : List Char} {caps : Captures}
    {key : String} (h : Takes os cs caps) (hseparate : ∀ p ∈ os, o.Separate p)
    (hkey : key ∈ o.keys) : Entries.get? key caps = none := by
  refine Entries.get?_eq_none_iff.mpr fun hmem => ?_
  obtain ⟨p, hp, hkey'⟩ := h.exists_key hmem
  exact hseparate p hp key hkey hkey'

/-- Captures of the same operands that hold the same text under every key are the same. -/
theorem Takes.unique {os : List Operand} {cs cs' : List Char} {caps caps' : Captures}
    (h : Takes os cs caps) (h' : Takes os cs' caps') (hseparate : os.Pairwise Operand.Separate)
    (hsame : ∀ key, Entries.get? key caps = Entries.get? key caps') : caps = caps' := by
  induction h generalizing cs' caps' with
  | nil =>
    cases h'
    rfl
  | @skip o os cs caps _ hos ih =>
    obtain ⟨hfirst, hrest⟩ := List.pairwise_cons.mp hseparate
    cases h' with
    | skip _ hos' => exact ih hos' hrest hsame
    | @take _ _ _ _ taken _ caps' key form _ hchoice _ _ =>
      have hnone := hos.get?_eq_none hfirst (List.mem_map.mpr ⟨_, hchoice, rfl⟩)
      rw [hsame, Entries.get?, if_pos rfl] at hnone
      cases hnone
  | @take o os c cs taken after caps key form _ hchoice _ hos ih =>
    obtain ⟨hfirst, hrest⟩ := List.pairwise_cons.mp hseparate
    have hkey : key ∈ o.keys := List.mem_map.mpr ⟨_, hchoice, rfl⟩
    cases h' with
    | skip _ hos' =>
      have hnone := hos'.get?_eq_none hfirst hkey
      rw [← hsame, Entries.get?, if_pos rfl] at hnone
      cases hnone
    | @take _ _ _ _ taken' _ caps' key' form' _ hchoice' _ hos' =>
      have hnone := hos.get?_eq_none hfirst hkey
      have hnone' := hos'.get?_eq_none hfirst hkey
      -- the text under `key` is not one of the later ones, so both start with it
      have hhead := hsame key
      rw [Entries.get?, if_pos rfl, Entries.get?] at hhead
      split at hhead
      · rename_i heq
        subst heq
        rw [← Option.some.inj hhead] at hsame ⊢
        have htail : ∀ other, Entries.get? other caps = Entries.get? other caps' := by
          intro other
          by_cases hother : key' = other
          · rw [← hother, hnone, hnone']
          · have := hsame other
            rwa [Entries.get?, if_neg hother, Entries.get?, if_neg hother] at this
        rw [ih hos' hrest htail]
      · rw [hnone'] at hhead
        cases hhead

theorem Laid.eq_flatMap {ts : List (List Char)} {cs : List Char} (h : Laid ts cs)
    (hspaces : ∀ c ∈ cs, Text.isBlank c = true → c = ' ') : cs = ts.flatMap fun t => ' ' :: t := by
  induction h with
  | nil => rfl
  | @cons b t ts cs hb _ ih =>
    have hrest := ih fun c hc => hspaces c (by simp [hc])
    rw [List.flatMap_cons, ← hrest, hspaces b List.mem_cons_self hb, List.cons_append]

/-! ## Fields and captures -/

/-- The one word that can be captured under a key, if there is just one. -/
def onlyWord? (key : String) (outputs : List (String × Form)) : Option String :=
  match outputs.filter fun output => output.1 = key with
  | [(_, .oneOf [t])] => some t
  | _ => none

theorem eq_oneOf_of_onlyWord? {key t : String} {outputs : List (String × Form)} {form : Form}
    (h : onlyWord? key outputs = some t) (hmem : (key, form) ∈ outputs) : form = .oneOf [t] := by
  have hfilter : (key, form) ∈ outputs.filter fun output => output.1 = key :=
    List.mem_filter.mpr ⟨hmem, decide_eq_true rfl⟩
  unfold onlyWord? at h
  split at h
  · rename_i heq
    rw [heq] at hfilter
    cases List.mem_singleton.mp hfilter
    rw [Option.some.inj h]
  · cases h

/-- The field says what was captured under its key. -/
def Field.Tells (field : Field) (outputs : List (String × Form)) : Prop :=
  field.slot = .text ∨ field.slot = .flag ∧ (onlyWord? field.key outputs).isSome = true

instance (field : Field) (outputs : List (String × Form)) : Decidable (field.Tells outputs) :=
  inferInstanceAs (Decidable (_ ∨ _))

section
variable {p : Pattern} {cs cs' : List Char} {caps caps' : Captures}

theorem eq_of_onlyWord? {key t s : String} (h : p.captures cs = some caps)
    (hword : onlyWord? key p.outputs = some t) (hget : Entries.get? key caps = some s) : s = t := by
  obtain ⟨form, hform, haccepts⟩ := Pattern.accepts_of_captures h _ (Entries.mem_of_get? hget)
  rw [eq_oneOf_of_onlyWord? hword hform] at haccepts
  obtain ⟨_, u, hu, htext⟩ := haccepts
  rw [List.mem_singleton.mp hu] at htext
  exact (String.toList_injective htext).symm

theorem get?_eq_of_tells {field : Field} (h : p.captures cs = some caps)
    (h' : p.captures cs' = some caps') (htells : field.Tells p.outputs)
    (hread : field.read caps = field.read caps') :
    Entries.get? field.key caps = Entries.get? field.key caps' := by
  rcases htells with hslot | ⟨hslot, hword⟩
  · have htext := congrArg FieldValue.text? hread
    rwa [field.text?_read, field.text?_read, if_pos hslot, if_pos hslot] at htext
  · obtain ⟨t, hword⟩ := Option.isSome_iff_exists.mp hword
    have hflag : (Entries.get? field.key caps).isSome = (Entries.get? field.key caps').isSome := by
      simpa only [Field.read, hslot, FieldValue.flag.injEq] using hread
    cases hget : Entries.get? field.key caps with
    | none =>
      rw [hget, Option.isSome_none] at hflag
      exact (Option.not_isSome_iff_eq_none.mp (by simp [← hflag])).symm
    | some s =>
      rw [hget, Option.isSome_some] at hflag
      obtain ⟨s', hget'⟩ := Option.isSome_iff_exists.mp hflag.symm
      rw [hget', eq_of_onlyWord? h hword hget, eq_of_onlyWord? h' hword hget']

end

/-! ## The table -/

theorem catalog_telling : ∀ rule ∈ catalog, ∀ output ∈ rule.pattern.outputs,
    ∃ field ∈ rule.fields, field.key = output.1 ∧ field.Tells rule.pattern.outputs := by
  decide +kernel

/-- all operands of a phrase -/
def Pattern.operands : Pattern → List Operand
  | .phrase _ operands => operands
  | _ => []

theorem catalog_separate : ∀ rule ∈ catalog,
    rule.pattern.operands.Pairwise Operand.Separate := by
  decide +kernel

/-- The spellings of the keyword of `conditions.aigp_metric`. -/
def metricSpellings : List String := ["aigp-metric", "aigrp-metric"]

/-- The spellings of the last keyword of `set.s_pmsi`. -/
def groupSpellings : List String := ["star-g", "start-g"]

theorem catalog_spellings : ∀ rule ∈ catalog,
    ∀ ts ∈ Pattern.spelledHeads rule.head, ∀ us ∈ Pattern.spelledHeads rule.head, ts = us ∨
      (rule.name = "conditions.aigp_metric" ∧
        ∃ t ∈ metricSpellings, ∃ u ∈ metricSpellings, ts = [t] ∧ us = [u]) ∨
      (rule.name = "set.s_pmsi" ∧ rule.pattern.operands = [] ∧
        ∃ t ∈ groupSpellings, ∃ u ∈ groupSpellings,
          ts = ["set", "s-pmsi", t] ∧ us = ["set", "s-pmsi", u]) := by
  decide +kernel

theorem statement_patterns : ∀ rule ∈ catalog,
    rule.lineClass ∈ [LineClass.condition, .action, .setting] →
      rule.pattern = .phrase rule.head rule.pattern.operands ∨
        rule.name = "apply" ∧
          rule.pattern = .call "apply" "route_policy" "route_policy_input" := by
  decide +kernel

/-- The fields of a line say what stands under each key of its captures. -/
theorem get?_eq_of_fields {rule : Rule} (hrule : rule ∈ catalog) {cs cs' : List Char}
    {caps caps' : Captures} (h : rule.pattern.captures cs = some caps)
    (h' : rule.pattern.captures cs' = some caps')
    (hfields : ∀ field ∈ rule.fields, field.read caps = field.read caps') (key : String) :
    Entries.get? key caps = Entries.get? key caps' := by
  by_cases houtput : ∃ form, (key, form) ∈ rule.pattern.outputs
  · obtain ⟨form, hform⟩ := houtput
    obtain ⟨field, hfield, rfl, htells⟩ := catalog_telling rule hrule _ hform
    exact get?_eq_of_tells h h' htells (hfields field hfield)
  · have hnone : ∀ {cs : List Char} {caps : Captures}, rule.pattern.captures cs = some caps →
        Entries.get? key caps = none := by
      intro cs caps h
      refine Entries.get?_eq_none_iff.mpr fun hkey => ?_
      obtain ⟨entry, hentry, rfl⟩ := List.mem_map.mp hkey
      obtain ⟨form, hform, _⟩ := Pattern.accepts_of_captures h entry hentry
      exact houtput ⟨form, hform⟩
    rw [hnone h, hnone h']

/-! ## Lines and their captures -/

/-- A line without blanks at its ends, and without blanks other than spaces. -/
structure Tidy (line : String) : Prop where
  trimmed : Line.trim line = line
  spaces : ∀ c ∈ line.toList, Text.isBlank c = true → c = ' '

theorem tidy_iff {line : String} : Tidy line ↔
    Line.trim line = line ∧ (line.toList.all fun c => !Text.isBlank c || c = ' ') = true := by
  rw [List.all_eq_true]
  constructor
  · rintro ⟨htrimmed, hspaces⟩
    refine ⟨htrimmed, fun c hc => ?_⟩
    cases hblank : Text.isBlank c with
    | true => simp [hspaces c hc hblank]
    | false => rfl
  · rintro ⟨htrimmed, hall⟩
    refine ⟨htrimmed, fun c hc hblank => ?_⟩
    simpa [hblank] using hall c hc

instance (line : String) : Decidable (Tidy line) :=
  decidable_of_iff _ tidy_iff.symm

/-- Two lines that may say the same to the rule of this name. -/
inductive Variant : String → String → String → Prop where
  /-- the keyword in either spelling -/
  | metric {t u : String} (after : String) : t ∈ metricSpellings → u ∈ metricSpellings →
      Variant "conditions.aigp_metric" (t ++ after) (u ++ after)
  /-- the last keyword in either spelling -/
  | group {t u : String} : t ∈ groupSpellings → u ∈ groupSpellings →
      Variant "set.s_pmsi" ("set s-pmsi " ++ t) ("set s-pmsi " ++ u)
  /-- any number of spaces between a name and an argument -/
  | argument {name argument : String} (i j : Nat) : argument ≠ "" →
      Variant "apply" ("apply " ++ name ++ String.ofList (List.replicate i ' ') ++ argument)
        ("apply " ++ name ++ String.ofList (List.replicate j ' ') ++ argument)

/-- keywords and captured texts of a phrase, behind single spaces -/
theorem Pattern.phrase_text {head : List (List String)} {operands : List Operand}
    (hproper : properHead head = true) {cs : List Char} {caps : Captures}
    (h : (phrase head operands).captures cs = some caps)
    (hspaces : ∀ c ∈ cs, Text.isBlank c = true → c = ' ') :
    ∃ ts ∈ spelledHeads head, ∃ after, Takes operands after caps ∧
      ' ' :: cs = (ts.flatMap fun t => ' ' :: t.toList)
        ++ caps.flatMap fun entry => ' ' :: entry.2.toList := by
  obtain ⟨after, hhead, hread⟩ := Option.bind_eq_some_iff.mp h
  obtain ⟨ts, hts, _, hlaid⟩ := exists_spelled hproper hhead
  have htakes := takes_of_readOperands hread
  have hline := hlaid _ htakes.laid
  refine ⟨ts, hts, after, htakes, ?_⟩
  rw [hline.eq_flatMap, List.flatMap_append, List.flatMap_map, List.flatMap_map]
  intro c hc hblank
  rcases List.mem_cons.mp hc with rfl | hc
  · rfl
  · exact hspaces c hc hblank

theorem Pattern.readCall_eq_some {nameField argumentField : String} {cs : List Char}
    {caps : Captures} (h : readCall nameField argumentField cs = some caps) :
    ∃ c name gap argument, cs = c :: (name ++ gap ++ argument) ∧ Text.isBlank c = true ∧
      (∀ d ∈ gap, Text.isBlank d = true) ∧
      caps = (nameField, String.ofList name) ::
        if argument = [] then [] else [(argumentField, String.ofList argument)] := by
  cases cs with
  | nil => cases h
  | cons c cs =>
    have hsplit : cs = cs.takeWhile isNameChar
        ++ (cs.dropWhile isNameChar).takeWhile Text.isBlank
        ++ Text.trimStart (cs.dropWhile isNameChar) := by
      rw [Text.trimStart, List.append_assoc, List.takeWhile_append_dropWhile,
        List.takeWhile_append_dropWhile]
    have hgap : ∀ d ∈ (cs.dropWhile isNameChar).takeWhile Text.isBlank, Text.isBlank d = true :=
      List.all_eq_true.mp List.all_takeWhile
    simp only [readCall] at h
    split at h
    · cases h
    · rename_i hname
      have hblank : Text.isBlank c = true := by
        cases hc : Text.isBlank c with
        | true => rfl
        | false => exact absurd (.inl hc) hname
      refine ⟨c, _, _, _, congrArg (c :: ·) hsplit, hblank, hgap, ?_⟩
      split at h
      · rename_i hnil
        rw [if_pos hnil]
        exact (Option.some.inj h).symm
      · rename_i hne
        rw [if_neg hne]
        split at h
        · cases h
        · exact (Option.some.inj h).symm

theorem apply_text {line nameField argumentField : String} (hline : Tidy line) {caps : Captures}
    (h : (Pattern.call "apply" nameField argumentField).captures line.toList = some caps) :
    ∃ name i argument,
      line = "apply " ++ name ++ String.ofList (List.replicate i ' ') ++ argument ∧
      (argument = "" → i = 0) ∧
      caps = (nameField, name) :: if argument = "" then [] else [(argumentField, argument)] := by
  obtain ⟨rest, hrest, hread⟩ := Option.bind_eq_some_iff.mp h
  obtain ⟨c, name, gap, argument, rfl, hc, hgap, rfl⟩ := Pattern.readCall_eq_some hread
  have htext := Pattern.afterText_eq_some_iff.mp hrest
  have hspaces := hline.spaces
  rw [htext] at hspaces
  obtain rfl := hspaces c (by simp) hc
  have hreplicate : gap = List.replicate gap.length ' ' :=
    List.eq_replicate_of_mem fun d hd => hspaces d (by simp [hd]) (hgap d hd)
  refine ⟨String.ofList name, gap.length, String.ofList argument, ?_, fun hnil => ?_, ?_⟩
  · apply String.toList_injective
    rw [htext, ← hreplicate]
    simp
  · -- the line would end with a blank
    rw [String.ofList_eq_empty_iff] at hnil
    rcases List.eq_nil_or_concat gap with rfl | ⟨init, d, rfl⟩
    · rfl
    · have htrim : Text.trim line.toList = line.toList := by
        rw [← Line.toList_trim, hline.trimmed]
      have hend : line.toList = ("apply".toList ++ ' ' :: (name ++ init)) ++ [d] := by
        rw [htext, hnil]
        simp
      rw [hend] at htrim
      have hblank := hgap d (by simp)
      rw [Text.isBlank_last (Text.trimEnd_of_trim htrim)] at hblank
      cases hblank
  · simp only [String.ofList_eq_empty_iff]

/-- Two lines of `apply` with the same fields have the same name and the same argument. -/
theorem eq_or_variant_of_apply {a b nameField argumentField : String}
    (hne : nameField ≠ argumentField) (ha : Tidy a) (hb : Tidy b) {caps caps' : Captures}
    (h : (Pattern.call "apply" nameField argumentField).captures a.toList = some caps)
    (h' : (Pattern.call "apply" nameField argumentField).captures b.toList = some caps')
    (hsame : ∀ key, Entries.get? key caps = Entries.get? key caps') :
    a = b ∨ Variant "apply" a b := by
  obtain ⟨name, i, argument, rfl, hzero, rfl⟩ := apply_text ha h
  obtain ⟨name', j, argument', rfl, hzero', rfl⟩ := apply_text hb h'
  have hname := hsame nameField
  rw [Entries.get?, if_pos rfl, Entries.get?, if_pos rfl] at hname
  obtain rfl := Option.some.inj hname
  have hread : ∀ s : String,
      (Entries.get? argumentField (if s = "" then [] else [(argumentField, s)])).getD "" = s := by
    intro s
    split
    · rename_i hs
      exact hs.symm
    · rw [Entries.get?, if_pos rfl]
      rfl
  have hget := hsame argumentField
  rw [Entries.get?, if_neg hne, Entries.get?, if_neg hne] at hget
  obtain rfl : argument = argument' := by
    rw [← hread argument, hget, hread]
  by_cases hnil : argument = ""
  · rw [hzero hnil, hzero' hnil]
    exact .inl rfl
  · exact .inr (.argument i j hnil)

/-- Two lines of a phrase with the same fields differ at most in how a keyword is spelled. -/
theorem eq_or_variant_of_phrase {rule : Rule} (hrule : rule ∈ catalog)
    (hphrase : rule.pattern = .phrase rule.head rule.pattern.operands) {a b : String}
    (ha : Tidy a) (hb : Tidy b) {caps caps' : Captures}
    (h : rule.pattern.captures a.toList = some caps)
    (h' : rule.pattern.captures b.toList = some caps')
    (hsame : ∀ key, Entries.get? key caps = Entries.get? key caps') :
    a = b ∨ Variant rule.name a b := by
  rw [hphrase] at h h'
  have hproper := catalog_heads rule hrule
  obtain ⟨ts, hts, after, htakes, htext⟩ := Pattern.phrase_text hproper h ha.spaces
  obtain ⟨us, hus, after', htakes', htext'⟩ := Pattern.phrase_text hproper h' hb.spaces
  obtain rfl := htakes.unique htakes' (catalog_separate rule hrule) hsame
  rcases catalog_spellings rule hrule ts hts us hus with
    rfl | ⟨hname, t, ht, u, hu, rfl, rfl⟩ | ⟨hname, hoperands, t, ht, u, hu, rfl, rfl⟩
  · exact .inl (String.toList_injective (List.cons.inj (htext.trans htext'.symm)).2)
  · rw [hname]
    generalize hrest : (caps.flatMap fun entry => ' ' :: entry.2.toList) = rest at htext htext'
    have hline : a = t ++ String.ofList rest := by
      apply String.toList_injective
      simpa using htext
    have hline' : b = u ++ String.ofList rest := by
      apply String.toList_injective
      simpa using htext'
    rw [hline, hline']
    exact .inr (.metric _ ht hu)
  · -- without operands there are no captures
    rw [hoperands] at htakes
    cases htakes
    rw [hname]
    have hline : a = "set s-pmsi " ++ t := by
      apply String.toList_injective
      simpa using htext
    have hline' : b = "set s-pmsi " ++ u := by
      apply String.toList_injective
      simpa using htext'
    rw [hline, hline']
    exact .inr (.group ht hu)

theorem captures_of_recognize {line : String} {m : Match} (hline : Tidy line)
    (h : recognize LineClass.any line = some m) :
    m.rule ∈ catalog ∧ ∃ caps, m.rule.pattern.captures line.toList = some caps ∧
      m.fields = m.rule.fields.map fun field => (field.key, field.read caps) := by
  obtain ⟨rule, hrule, _, hmatch⟩ := exists_of_recognize h
  rw [← Line.toList_trim, hline.trimmed] at hmatch
  obtain ⟨caps, hcaps, rfl⟩ := Option.map_eq_some_iff.mp hmatch
  exact ⟨hrule, caps, hcaps, rfl⟩

/-- **Recognition loses no text.**  Two lines without blanks at their ends, and without blanks other
than spaces, that are recognised as the same clause, action or setting with the same fields are the
same line, unless they differ in one of three ways: how the keyword of `aigp_metric` is spelled, how
that of `s_pmsi` is, or how many spaces stand behind the name in an `apply`. -/
theorem recognize_lossless {a b : String} {m m' : Match} (ha : Tidy a) (hb : Tidy b)
    (h : recognize LineClass.any a = some m) (h' : recognize LineClass.any b = some m')
    (hclass : m.rule.lineClass ∈ [LineClass.condition, .action, .setting])
    (hrule : m.rule = m'.rule) (hfields : m.fields = m'.fields) :
    a = b ∨ Variant m.rule.name a b := by
  obtain ⟨hmem, caps, hcaps, hread⟩ := captures_of_recognize ha h
  obtain ⟨_, caps', hcaps', hread'⟩ := captures_of_recognize hb h'
  rw [← hrule] at hcaps' hread'
  have hsame : ∀ key, Entries.get? key caps = Entries.get? key caps' := by
    refine get?_eq_of_fields hmem hcaps hcaps' fun field hfield => ?_
    have hmap := hread.symm.trans (hfields.trans hread')
    exact (Prod.mk.inj (List.map_inj_left.mp hmap field hfield)).2
  rcases statement_patterns m.rule hmem hclass with hphrase | ⟨hname, hcall⟩
  · exact eq_or_variant_of_phrase hmem hphrase ha hb hcaps hcaps' hsame
  · rw [hcall] at hcaps hcaps'
    rw [hname]
    exact eq_or_variant_of_apply (by decide) ha hb hcaps hcaps' hsame

/-- Two spellings of one keyword. -/
example : recognize LineClass.any "set s-pmsi star-g"
    = recognize LineClass.any "set s-pmsi start-g" := by
  decide +kernel

theorem recognize_lossless_apply :
    recognize LineClass.any "apply CHILD (10)" = recognize LineClass.any "apply CHILD   (10)" ∧
    Variant "apply" "apply CHILD (10)" "apply CHILD   (10)" := by
  have hsame : recognize LineClass.any "apply CHILD (10)"
      = recognize LineClass.any "apply CHILD   (10)" := by
    decide +kernel
  obtain ⟨m, hm, hclass, hname⟩ : ∃ m, recognize LineClass.any "apply CHILD (10)" = some m ∧
      m.rule.lineClass = .action ∧ m.rule.name = "apply" :=
    ⟨(recognize LineClass.any "apply CHILD (10)").get (by decide +kernel),
      (Option.some_get _).symm, by decide +kernel, by decide +kernel⟩
  have htidy : Tidy "apply CHILD (10)" := by decide +kernel
  have htidy' : Tidy "apply CHILD   (10)" := by decide +kernel
  have hdiffer : "apply CHILD (10)" ≠ "apply CHILD   (10)" := by decide
  have hvariant := (recognize_lossless htidy htidy' hm (hsame ▸ hm) (by rw [hclass]; decide) rfl
    rfl).resolve_left hdiffer
  rw [hname] at hvariant
  exact ⟨hsame, hvariant⟩

end RoutePolicy
