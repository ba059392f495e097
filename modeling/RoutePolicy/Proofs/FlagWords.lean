import Mathlib.Data.List.Nodup
import RoutePolicy.Proofs.ClosedReading
import RoutePolicy.Proofs.Layout

/-!
# Settings whose operands are flags

Nine settings have nothing but optional fixed words behind their keyword, and a flag for each word.
Some of the words start others (`mldp`, `mldp-default`), and every word may be missing; still the
line says which words are there in one way only.

* `readOperands_tokens`   optional fixed words are read off a text exactly when the text is some of
                          them, in order, each behind one blank character;
* `captures_eq_some_iff`  so a flag setting reads such lines and no others, and what it captures are
                          the options that stand on the line;
* `isSome_get?_iff`       a flag is raised exactly when its word is one of those.

The nine rules enter through one fact about the catalog (`flags_table`), found by evaluation.
-/

namespace RoutePolicy

/-! ## Texts in a row, read again -/

namespace Laid

theorem separated {ts : List (List Char)} {cs : List Char} (h : Laid ts cs) : Text.Separated cs := by
  cases h with
  | nil => exact Text.separated_nil
  | cons hb _ => exact Text.separated_cons hb _

theorem words_eq {ts : List (List Char)} {cs : List Char} (h : Laid ts cs)
    (hwords : ∀ t ∈ ts, Text.IsWord t) : Text.words cs = ts := by
  induction h with
  | nil => rfl
  | @cons b t ts cs hb hlaid ih =>
    have ht := hwords t List.mem_cons_self
    rw [Text.words, if_pos hb, Text.words_word_append ht hlaid.separated,
      ih fun u hu => hwords u (List.mem_cons_of_mem _ hu)]

end Laid

theorem Form.read_oneOf {tokens : List String} {w after : List Char} (hw : Text.IsWord w)
    (hafter : Text.Separated after) :
    (Form.oneOf tokens).read (w ++ after)
      = if (tokens.any fun t => t.toList == w) = true then some (w, after) else none := by
  show readWord (fun w => tokens.any fun t => t.toList == w) (w ++ after) = _
  split
  · rename_i htoken
    exact readWord_eq_some_iff.mpr ⟨rfl, hw.1, hw.2, hafter, htoken⟩
  · rename_i htoken
    -- whatever is taken is the run up to the first blank, which is `w`
    rw [readWord, Text.takeWhile_solid_append hw.2 hafter, if_neg]
    exact fun hboth => htoken hboth.2

/-- Keywords in front of texts that are laid out are read, and the texts are left. -/
theorem Pattern.readHead_laid {head : List (List String)} {ts : List String}
    {texts : List (List Char)} {cs : List Char} (hts : ts ∈ spelledHeads head)
    (hwords : ∀ t ∈ ts, Text.IsWord t.toList) (h : Laid (ts.map String.toList ++ texts) cs) :
    ∃ after, readHead head cs = some after ∧ Laid texts after := by
  induction head generalizing ts cs with
  | nil =>
    obtain rfl := List.mem_singleton.mp hts
    exact ⟨cs, rfl, h⟩
  | cons spellings more ih =>
    obtain ⟨t, ht, hrest⟩ := List.mem_flatMap.mp hts
    obtain ⟨us, hus, rfl⟩ := List.mem_map.mp hrest
    obtain _ | @⟨b, _, _, rest, hb, hrest⟩ := h
    obtain ⟨after, hafter, hlaid⟩ := ih hus (fun u hu => hwords u (List.mem_cons_of_mem _ hu)) hrest
    have htoken : (spellings.any fun u => u.toList == t.toList) = true :=
      List.any_eq_true.mpr ⟨t, ht, beq_self_eq_true _⟩
    have hread : (Form.oneOf spellings).read (t.toList ++ rest) = some (t.toList, rest) := by
      rw [Form.read_oneOf (hwords t List.mem_cons_self) hrest.separated, if_pos htoken]
    refine ⟨after, ?_, hlaid⟩
    rw [readHead, if_pos hb, hread]
    exact hafter

/-! ## Optional fixed words -/

theorem Operand.ways_token (o : String × String) {b : Char} {w rest : List Char}
    (hb : Text.isBlank b = true) (hw : Text.IsWord w) (hrest : Text.Separated rest) :
    (token o.1 o.2).ways (b :: (w ++ rest)) = if o.2.toList = w then [(o, rest)] else [] := by
  rw [ways, if_pos hb]
  show [(o.1, Form.oneOf [o.2])].filterMap _ = _
  rw [List.filterMap_cons, List.filterMap_nil, Form.read_oneOf hw hrest]
  by_cases heq : o.2.toList = w
  · subst heq
    rw [if_pos (by simp), if_pos rfl]
    show [((o.1, String.ofList o.2.toList), rest)] = [(o, rest)]
    rw [String.ofList_toList]
  · rw [if_neg (by simpa using heq), if_neg heq]
    rfl

section
variable {options : List (String × String)} {cs : List Char} {caps : Captures}

/-- What optional words capture is some of the options. -/
theorem Takes.sublist_options
    (h : Takes (options.map fun o => Operand.token o.1 o.2) cs caps) : caps.Sublist options := by
  generalize hos : (options.map fun o => Operand.token o.1 o.2) = os at h
  induction h generalizing options with
  | nil => exact List.nil_sublist options
  | skip _ _ ih =>
    obtain ⟨o, options, rfl, rfl, hrest⟩ := List.map_eq_cons_iff.mp hos
    exact (ih hrest).cons o
  | @take _ _ _ _ taken _ _ key form _ hchoice hread _ ih =>
    obtain ⟨o, options, rfl, rfl, hrest⟩ := List.map_eq_cons_iff.mp hos
    obtain ⟨rfl, rfl⟩ := Prod.mk.inj (List.mem_singleton.mp hchoice)
    obtain ⟨_, t, ht, htaken⟩ := Form.accepts_of_read hread
    rw [List.mem_singleton.mp ht] at htaken
    rw [← htaken, String.ofList_toList]
    exact (ih hrest).cons_cons o

/-- An option that is not the next word of a text is not read there. -/
theorem readTaken_token {o : String × String} {os : List Operand} {ts : List (List Char)}
    (h : Laid ts cs) (hwords : ∀ t ∈ ts, Text.IsWord t) (hother : o.2.toList ∉ ts) :
    readTaken (.token o.1 o.2) os cs = none := by
  cases h with
  | nil => rfl
  | @cons b t ts rest hb hrest =>
    have hne : o.2.toList ≠ t := fun heq => hother (heq ▸ List.mem_cons_self)
    rw [readTaken, Operand.ways_token o hb (hwords t List.mem_cons_self) hrest.separated,
      if_neg hne]
    rfl

/-- **Optional fixed words are read as they stand.**  They make up a text exactly when the text is
some of them in order, each behind one blank character. -/
theorem readOperands_tokens (hwords : ∀ o ∈ options, Text.IsWord o.2.toList)
    (hnodup : (options.map Prod.snd).Nodup) :
    readOperands (options.map fun o => Operand.token o.1 o.2) cs = some caps ↔
      caps.Sublist options ∧ Laid (caps.map fun entry => entry.2.toList) cs := by
  constructor
  · intro h
    have htakes := takes_of_readOperands h
    exact ⟨htakes.sublist_options, htakes.laid⟩
  · rintro ⟨hsub, hlaid⟩
    induction hsub generalizing cs with
    | slnil =>
      cases hlaid
      rfl
    | @cons caps options o hsub ih =>
      obtain ⟨hfirst, hrest⟩ := List.nodup_cons.mp hnodup
      have hwords' := fun p hp => hwords p (List.mem_cons_of_mem _ hp)
      -- the word of `o` is none of the words on the line
      have hother : o.2.toList ∉ caps.map fun entry => entry.2.toList := by
        intro hmem
        obtain ⟨entry, hentry, heq⟩ := List.mem_map.mp hmem
        rw [String.toList_injective heq.symm] at hfirst
        exact hfirst (List.mem_map_of_mem (hsub.mem hentry))
      have hlaidWords : ∀ t ∈ caps.map fun entry => entry.2.toList, Text.IsWord t := by
        intro t ht
        obtain ⟨entry, hentry, rfl⟩ := List.mem_map.mp ht
        exact hwords' entry (hsub.mem hentry)
      rw [List.map_cons, readOperands_cons]
      show (readTaken _ _ cs).or (readOperands _ cs) = _
      rw [readTaken_token hlaid hlaidWords hother, Option.none_or, ih hwords' hrest hlaid]
    | @cons_cons caps options o hsub ih =>
      obtain ⟨_, hrest⟩ := List.nodup_cons.mp hnodup
      obtain _ | @⟨b, _, _, rest, hb, hlaid⟩ := hlaid
      have hread := ih (fun p hp => hwords p (List.mem_cons_of_mem _ hp)) hrest hlaid
      rw [List.map_cons, readOperands_cons]
      show (readTaken _ _ (b :: (o.2.toList ++ rest))).or _ = _
      rw [readTaken, Operand.ways_token o hb (hwords o List.mem_cons_self) hlaid.separated,
        if_pos rfl, List.findSome?_cons, hread]
      rfl

end

/-! ## Flag settings -/

/-- A value that only one element of a list has is among the values of a part of the list when that
element is. -/
theorem mem_map_iff_of_nodup {α β : Type} {f : α → β} {part all : List α}
    (hnodup : (all.map f).Nodup) (hsub : part.Sublist all) {a : α} (ha : a ∈ all) :
    f a ∈ part.map f ↔ a ∈ part := by
  constructor
  · intro h
    obtain ⟨b, hb, heq⟩ := List.mem_map.mp h
    rwa [← List.inj_on_of_nodup_map hnodup (hsub.mem hb) ha heq]
  · exact List.mem_map_of_mem

/-- keyword and options are words, and no two options have the same key or the same word -/
structure PlainOptions (keyword : String) (options : List (String × String)) : Prop where
  proper : Pattern.properHead [["set"], [keyword]] = true
  keyword_word : Text.IsWord keyword.toList
  words : ∀ o ∈ options, Text.IsWord o.2.toList
  nodup_keys : (options.map Prod.fst).Nodup
  nodup_words : (options.map Prod.snd).Nodup

instance (keyword : String) (options : List (String × String)) :
    Decidable (PlainOptions keyword options) :=
  decidable_of_iff (Pattern.properHead [["set"], [keyword]] = true ∧ Text.IsWord keyword.toList ∧
      (∀ o ∈ options, Text.IsWord o.2.toList) ∧ (options.map Prod.fst).Nodup ∧
      (options.map Prod.snd).Nodup)
    ⟨fun ⟨h₁, h₂, h₃, h₄, h₅⟩ => ⟨h₁, h₂, h₃, h₄, h₅⟩,
      fun h => ⟨h.proper, h.keyword_word, h.words, h.nodup_keys, h.nodup_words⟩⟩

namespace PlainOptions
variable {leaf keyword : String} {options : List (String × String)} {caps : Captures}

/-- A flag setting captures some of its options, and the line is its keyword and their words. -/
theorem captures_eq_some_iff (h : PlainOptions keyword options) {cs : List Char} :
    (Catalog.flagSetting leaf keyword options).pattern.captures cs = some caps ↔
      caps.Sublist options ∧
        Laid ((["set", keyword] ++ caps.map Prod.snd).map String.toList) (' ' :: cs) := by
  have htexts : (["set", keyword] ++ caps.map Prod.snd).map String.toList
      = ["set", keyword].map String.toList ++ caps.map fun entry => entry.2.toList := by
    rw [List.map_append, List.map_map]
    rfl
  rw [htexts]
  show (Pattern.readHead [["set"], [keyword]] (' ' :: cs)).bind _ = some caps ↔ _
  constructor
  · intro hcaps
    obtain ⟨after, hafter, hread⟩ := Option.bind_eq_some_iff.mp hcaps
    obtain ⟨hsub, hlaid⟩ := (readOperands_tokens h.words h.nodup_words).mp hread
    obtain ⟨ts, hts, _, hline⟩ := Pattern.exists_spelled h.proper hafter
    obtain rfl : ts = ["set", keyword] := List.mem_singleton.mp hts
    exact ⟨hsub, hline _ hlaid⟩
  · rintro ⟨hsub, hlaid⟩
    have hwords : ∀ t ∈ ["set", keyword], Text.IsWord t.toList := by
      intro t ht
      rcases List.mem_pair.mp ht with rfl | rfl
      · decide
      · exact h.keyword_word
    have hspelled : ["set", keyword] ∈ Pattern.spelledHeads [["set"], [keyword]] :=
      List.mem_singleton_self _
    obtain ⟨after, hafter, hrest⟩ := Pattern.readHead_laid hspelled hwords hlaid
    rw [hafter, Option.bind_some]
    exact (readOperands_tokens h.words h.nodup_words).mpr ⟨hsub, hrest⟩

/-- The words behind the keyword are those of the captured options. -/
theorem drop_words (h : PlainOptions keyword options) (hsub : caps.Sublist options) {cs : List Char}
    (hlaid : Laid ((["set", keyword] ++ caps.map Prod.snd).map String.toList) (' ' :: cs)) :
    (Text.words cs).drop 2 = (caps.map Prod.snd).map String.toList := by
  have hwords : ∀ t ∈ (["set", keyword] ++ caps.map Prod.snd).map String.toList,
      Text.IsWord t := by
    intro t ht
    obtain ⟨u, hu, rfl⟩ := List.mem_map.mp ht
    rcases List.mem_append.mp hu with hu | hu
    · rcases List.mem_pair.mp hu with rfl | rfl
      · decide
      · exact h.keyword_word
    · obtain ⟨o, ho, rfl⟩ := List.mem_map.mp hu
      exact h.words o (hsub.mem ho)
  have hline := hlaid.words_eq hwords
  rw [Text.words, if_pos Text.isBlank_space] at hline
  rw [hline]
  rfl

/-- A flag is raised when its word stands on the line. -/
theorem isSome_get?_iff (h : PlainOptions keyword options) (hsub : caps.Sublist options)
    {o : String × String} (ho : o ∈ options) :
    (Entries.get? o.1 caps).isSome = true ↔ o.2 ∈ caps.map Prod.snd := by
  rw [mem_map_iff_of_nodup h.nodup_words hsub ho, ← mem_map_iff_of_nodup h.nodup_keys hsub ho,
    Option.isSome_iff_ne_none, ne_eq, Entries.get?_eq_none_iff, not_not]
  rfl

end PlainOptions

/-! ## The table -/

/-- Whether a rule leaves a mapping of flags and nothing else. -/
def Rule.flagsOnly (rule : Rule) : Bool :=
  match rule.shape with
  | .map fields => fields.all fun field => field.slot = .flag
  | _ => false

/-- The word for a key: hyphens stand for underscores, and one flag has a word of its own. -/
def spelling (key : String) : String :=
  if key = "rincomplete" then "incomplete"
  else String.ofList (key.toList.map fun c => if c = '_' then '-' else c)

/-- The fields of a rule, each with its word, in the order in which the rule declares them. -/
def Rule.options (rule : Rule) : List (String × String) :=
  rule.fields.map fun field => (field.key, spelling field.key)

theorem flags_table : ∀ rule ∈ catalog, rule.flagsOnly = true →
    rule = Catalog.flagSetting rule.leaf (spelling rule.leaf) rule.options ∧
      PlainOptions (spelling rule.leaf) rule.options := by
  decide +kernel

theorem flags_names : (catalog.filter Rule.flagsOnly).map Rule.name
    = ["set.c_multicast_routing", "set.core_tree", "set.downstream_core_tree", "set.label_mode",
      "set.level", "set.metric_type", "set.origin", "set.spf_priority",
      "set.upstream_core_tree"] := by
  decide +kernel

theorem slot_of_flagsOnly {rule : Rule} (h : rule.flagsOnly = true) {field : Field}
    (hfield : field ∈ rule.fields) : field.slot = .flag := by
  rw [Rule.flagsOnly] at h
  rw [Rule.fields] at hfield
  split at h
  · rename_i fields hshape
    rw [hshape] at hfield
    simpa using List.all_eq_true.mp h field hfield
  · cases h

section
variable {rule : Rule} (hrule : rule ∈ catalog) (hflags : rule.flagsOnly = true)
  {cs : List Char}
include hrule hflags

theorem captures_flags_iff {caps : Captures} :
    rule.pattern.captures cs = some caps ↔ caps.Sublist rule.options ∧
      Laid ((["set", spelling rule.leaf] ++ caps.map Prod.snd).map String.toList) (' ' :: cs) := by
  obtain ⟨hsetting, hplain⟩ := flags_table rule hrule hflags
  have hpattern := congrArg Rule.pattern hsetting
  rw [hpattern]
  exact hplain.captures_eq_some_iff

theorem isSome_match?_flags_iff :
    (rule.match? cs).isSome = true ↔ ∃ words, words.Sublist (rule.options.map Prod.snd) ∧
      Laid ((["set", spelling rule.leaf] ++ words).map String.toList) (' ' :: cs) := by
  rw [match?_isSome_iff, Option.isSome_iff_exists]
  constructor
  · rintro ⟨caps, hcaps⟩
    obtain ⟨hsub, hlaid⟩ := (captures_flags_iff hrule hflags).mp hcaps
    exact ⟨caps.map Prod.snd, hsub.map Prod.snd, hlaid⟩
  · rintro ⟨words, hwords, hlaid⟩
    obtain ⟨caps, hsub, rfl⟩ := List.sublist_map_iff.mp hwords
    exact ⟨caps, (captures_flags_iff hrule hflags).mpr ⟨hsub, hlaid⟩⟩

theorem fields_of_match?_flags {m : Match} (hm : rule.match? cs = some m) :
    m.fields = rule.options.map fun o =>
      (o.1, .flag (decide (o.2.toList ∈ (Text.words cs).drop 2))) := by
  obtain ⟨_, hplain⟩ := flags_table rule hrule hflags
  obtain ⟨caps, hcaps, rfl⟩ := Option.map_eq_some_iff.mp hm
  obtain ⟨hsub, hlaid⟩ := (captures_flags_iff hrule hflags).mp hcaps
  rw [Rule.options, List.map_map]
  refine List.map_congr_left fun field hfield => ?_
  have hread : field.read caps = .flag (Entries.get? field.key caps).isSome := by
    rw [Field.read, slot_of_flagsOnly hflags hfield]
  have hoption : (field.key, spelling field.key) ∈ rule.options := List.mem_map_of_mem hfield
  have hraised : (Entries.get? field.key caps).isSome
      = decide ((spelling field.key).toList ∈ (Text.words cs).drop 2) := by
    rw [Bool.eq_iff_iff, decide_eq_true_iff, hplain.isSome_get?_iff hsub hoption,
      hplain.drop_words hsub hlaid,
      List.mem_map_of_injective fun _ _ h => String.toList_injective h]
  show (field.key, field.read caps) = (field.key, FieldValue.flag _)
  rw [hread, hraised]

end

/-- **Flags say which words are there.**  The rules with flags only are nine settings.  Each of them
reads a line exactly when the line is `set`, the keyword and some of the options in their order, with
one blank character between two words; and then a flag is true when its word is one of those behind
the keyword, and false otherwise. -/
theorem match?_flags :
    (catalog.filter Rule.flagsOnly).map Rule.name
      = ["set.c_multicast_routing", "set.core_tree", "set.downstream_core_tree", "set.label_mode",
        "set.level", "set.metric_type", "set.origin", "set.spf_priority",
        "set.upstream_core_tree"] ∧
    ∀ rule ∈ catalog, rule.flagsOnly = true → ∀ line : String,
      ((rule.match? (Text.trim line.toList)).isSome = true ↔
        ∃ words, words.Sublist (rule.options.map Prod.snd) ∧
          Laid ((["set", spelling rule.leaf] ++ words).map String.toList)
            (' ' :: Text.trim line.toList)) ∧
      ∀ m, rule.match? (Text.trim line.toList) = some m →
        m.fields = rule.options.map fun o =>
          (o.1, .flag (decide (o.2.toList ∈ (Text.words line.toList).drop 2))) := by
  refine ⟨flags_names, fun rule hrule hflags line => ?_⟩
  rw [← Text.words_trim]
  exact ⟨isSome_match?_flags_iff hrule hflags, fun m hm => fields_of_match?_flags hrule hflags hm⟩

/-- A setting with words that start one another. -/
def levelSetting : Rule :=
  Catalog.flagSetting "level" "level"
    [("level_1", "level-1"), ("level_1_2", "level-1-2"), ("level_2", "level-2")]

theorem match?_flags_level :
    levelSetting ∈ catalog ∧ levelSetting.flagsOnly = true ∧
    ∃ m, levelSetting.match? (Text.trim "\tset level\u00a0level-1-2 level-2 ".toList) = some m ∧
      m.fields = [("level_1", .flag false), ("level_1_2", .flag true), ("level_2", .flag true)] := by
  have hmem : levelSetting ∈ catalog := by decide +kernel
  have hflags : levelSetting.flagsOnly = true := by decide +kernel
  obtain ⟨hreads, hfields⟩ :=
    match?_flags.2 levelSetting hmem hflags "\tset level\u00a0level-1-2 level-2 "
  have hlaid : Laid (["set", "level", "level-1-2", "level-2"].map String.toList)
      (' ' :: Text.trim "\tset level\u00a0level-1-2 level-2 ".toList) :=
    .cons (by decide) <| .cons (by decide) <| .cons (by decide) <| .cons (by decide) .nil
  obtain ⟨m, hm⟩ := Option.isSome_iff_exists.mp
    (hreads.mpr ⟨["level-1-2", "level-2"], by decide +kernel, hlaid⟩)
  refine ⟨hmem, hflags, m, hm, ?_⟩
  rw [hfields m hm]
  decide +kernel

end RoutePolicy
