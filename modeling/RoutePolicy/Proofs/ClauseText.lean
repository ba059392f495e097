import RoutePolicy.Proofs.Captured
import RoutePolicy.Proofs.Dispatch
import RoutePolicy.Document.Resolve

/-!
# The texts of clauses

A clause comes out of a condition as words with single spaces between them, however the condition
was spaced (`spaced_clausesOf`).  So a clause that a rule recognises by its keywords alone, with no
operand and no connective behind them, is one of finitely many texts: `bareClauses` lists them and
`silent_iff_bare` says that there are no others.
-/

namespace RoutePolicy

/-! ## Words joined by spaces -/

namespace Text

/-- A word: at least one character, and none is blank. -/
def IsWord (w : List Char) : Prop :=
  w ≠ [] ∧ ∀ c ∈ w, isBlank c = false

theorem isWord_of_mem_words {cs w : List Char} (h : w ∈ words cs) : IsWord w := by
  induction cs generalizing w with
  | nil => exact absurd h (by simp)
  | cons c cs ih =>
    rw [words] at h
    split at h
    · exact ih h
    · rename_i hc
      have hc : isBlank c = false := by simpa using hc
      split at h
      · rcases List.mem_cons.mp h with rfl | h
        · exact ⟨by simp, fun d hd => by rw [List.mem_singleton.mp hd]; exact hc⟩
        · exact ih h
      · cases hws : words cs with
        | nil =>
          rw [hws] at h
          rw [List.mem_singleton.mp h]
          exact ⟨by simp, fun d hd => by rw [List.mem_singleton.mp hd]; exact hc⟩
        | cons v vs =>
          rw [hws] at h ih
          rcases List.mem_cons.mp h with rfl | h
          · refine ⟨by simp, fun d hd => ?_⟩
            rcases List.mem_cons.mp hd with rfl | hd
            · exact hc
            · exact (ih List.mem_cons_self).2 d hd
          · exact ih (List.mem_cons_of_mem _ h)

theorem unwords_cons (w : List Char) {ws : List (List Char)} (h : ws ≠ []) :
    unwords (w :: ws) = w ++ ' ' :: unwords ws := by
  cases ws with
  | nil => exact absurd rfl h
  | cons v vs => rfl

theorem unwords_concat {ws : List (List Char)} (h : ws ≠ []) (w : List Char) :
    unwords (ws ++ [w]) = unwords ws ++ ' ' :: w := by
  induction ws with
  | nil => exact absurd rfl h
  | cons v vs ih =>
    cases vs with
    | nil => rfl
    | cons u us =>
      rw [List.cons_append, unwords_cons v (by simp), ih (by simp), unwords_cons v (by simp),
        List.append_assoc, List.cons_append]

/-- Words, at least one, with single spaces between them. -/
def Spaced (cs : List Char) : Prop :=
  ∃ ws, ws ≠ [] ∧ (∀ w ∈ ws, IsWord w) ∧ cs = unwords ws

theorem Spaced.concat {cs w : List Char} (h : Spaced cs) (hw : IsWord w) :
    Spaced (cs ++ ' ' :: w) := by
  obtain ⟨ws, hne, hwords, rfl⟩ := h
  refine ⟨ws ++ [w], by simp, fun v hv => ?_, (unwords_concat hne w).symm⟩
  rcases List.mem_append.mp hv with hv | hv
  · exact hwords v hv
  · rw [List.mem_singleton.mp hv]; exact hw

theorem trimStart_word_append {w : List Char} (hw : IsWord w) (cs : List Char) :
    trimStart (w ++ cs) = w ++ cs := by
  obtain ⟨c, w', rfl⟩ := List.exists_cons_of_ne_nil hw.1
  exact trimStart_cons_solid (hw.2 c List.mem_cons_self) (w' ++ cs)

theorem trimEnd_append_word {w : List Char} (hw : IsWord w) (cs : List Char) :
    trimEnd (cs ++ w) = cs ++ w := by
  obtain ⟨w', c, rfl⟩ : ∃ w' c, w = w' ++ [c] :=
    ⟨w.dropLast, w.getLast hw.1, (List.dropLast_concat_getLast hw.1).symm⟩
  rw [← List.append_assoc]
  exact trimEnd_append_solid (hw.2 c (by simp)) (cs ++ w')

theorem Spaced.trim_eq {cs : List Char} (h : Spaced cs) : trim cs = cs := by
  obtain ⟨ws, hne, hwords, rfl⟩ := h
  have hstart : trimStart (unwords ws) = unwords ws := by
    obtain ⟨w, vs, rfl⟩ := List.exists_cons_of_ne_nil hne
    cases vs with
    | nil =>
      have := trimStart_word_append (hwords w List.mem_cons_self) []
      rwa [List.append_nil] at this
    | cons v vs => exact trimStart_word_append (hwords w List.mem_cons_self) _
  rw [trim, hstart]
  have hlast := hwords _ (List.getLast_mem hne)
  by_cases hinit : ws.dropLast = []
  · have hws : ws = [ws.getLast hne] := by
      have := List.dropLast_concat_getLast hne
      rw [hinit] at this
      exact this.symm
    rw [hws]
    exact trimEnd_append_word hlast []
  · rw [← List.dropLast_concat_getLast hne, unwords_concat hinit, List.append_cons]
    exact trimEnd_append_word hlast _

end Text

/-! ## Clauses are spaced -/

namespace Condition

theorem ne_nil_of_mem_cut {depth : Nat} {ws : List (List Char)} {part : List (List Char)}
    (h : part ∈ cut depth ws) : part ≠ [] := by
  induction ws generalizing depth part with
  | nil => exact absurd h (by simp [cut])
  | cons w ws ih =>
    simp only [cut] at h
    split at h
    · rcases List.mem_cons.mp h with rfl | h
      · simp
      · exact ih h
    · cases hcut : cut (w.foldl deepen depth) ws with
      | nil =>
        rw [hcut] at h
        rw [List.mem_singleton.mp h]
        simp
      | cons p ps =>
        rw [hcut] at h
        rcases List.mem_cons.mp h with rfl | h
        · simp
        · exact ih (by rw [hcut]; exact List.mem_cons_of_mem _ h)

theorem isWord_of_mem_cut {cs : List Char} {part : List (List Char)}
    (h : part ∈ cut 0 (Text.words cs)) : ∀ w ∈ part, Text.IsWord w := by
  intro w hw
  have hmem : w ∈ (cut 0 (Text.words cs)).flatten := List.mem_flatten.mpr ⟨part, h, hw⟩
  rw [cut_flatten] at hmem
  exact Text.isWord_of_mem_words hmem

theorem mem_of_splitConnective {ws : List (List Char)} {w : List Char}
    (h : (splitConnective ws).2 = some w) : w ∈ ws := by
  unfold splitConnective at h
  split at h
  · rename_i last hlast
    split at h
    · rw [← Option.some.inj h]
      exact List.mem_of_getLast? hlast
    · simp at h
  · simp at h

/-- The inside of a group weighs less than the condition that the group stands in. -/
theorem weight_group_lt {cs inner : List Char} {part : List (List Char)}
    (hpart : part ∈ cut 0 (Text.words cs))
    (h : inside? (Text.unwords (splitConnective part).1) = some inner) :
    weight inner < weight cs := by
  have h1 := weight_inside_lt h
  have h2 := weight_splitConnective_le part
  have h3 := weight_flatten_mem_le hpart
  rw [weight_unwords] at h1
  rw [cut_flatten, weight_flatten_words] at h3
  omega

/-- What holds of a condition when it holds of the insides of its groups, holds of every condition. -/
theorem groups_induction {P : List Char → Prop}
    (step : ∀ cs, (∀ part ∈ cut 0 (Text.words cs), ∀ inner,
      inside? (Text.unwords (splitConnective part).1) = some inner → P inner) → P cs)
    (cs : List Char) : P cs := by
  induction hn : weight cs using Nat.strongRecOn generalizing cs with
  | ind n ih =>
    refine step cs fun part hpart inner hinner => ih (weight inner) ?_ inner rfl
    rw [← hn]
    exact weight_group_lt hpart hinner

theorem spaced_close {connective : Option (List Char)} {parts : List (List Char)}
    (hconnective : ∀ w, connective = some w → Text.IsWord w)
    (h : ∀ part ∈ parts, Text.Spaced part) : ∀ part ∈ close connective parts, Text.Spaced part := by
  intro part hpart
  unfold close at hpart
  split at hpart
  · rename_i w last hlast
    rcases List.mem_append.mp hpart with hpart | hpart
    · exact h part ((List.dropLast_sublist parts).mem hpart)
    · rw [List.mem_singleton.mp hpart]
      exact (h last (List.mem_of_getLast? hlast)).concat (hconnective w rfl)
  · exact h part hpart

theorem spaced_clausesOf (cs : List Char) : ∀ clause ∈ clausesOf cs, Text.Spaced clause := by
  induction cs using groups_induction with
  | step cs ih =>
    intro clause hclause
    rw [clausesOf_eq] at hclause
    obtain ⟨part, hpart, hclause⟩ := List.mem_flatMap.mp hclause
    split at hclause
    · rename_i inner hinner
      refine spaced_close (fun w hw => ?_) (ih part hpart inner hinner) clause hclause
      exact isWord_of_mem_cut hpart w (mem_of_splitConnective hw)
    · rw [List.mem_singleton.mp hclause]
      exact ⟨part, ne_nil_of_mem_cut hpart, isWord_of_mem_cut hpart, rfl⟩

end Condition

/-! ## Lines that are keywords alone -/

namespace Pattern

/-- The ways to spell keywords, one spelling for each. -/
def spelledHeads : List (List String) → List (List String)
  | [] => [[]]
  | spellings :: more => spellings.flatMap fun t => (spelledHeads more).map (t :: ·)

/-- The lines of a phrase without operands, with single spaces. -/
def bareTexts : Pattern → List String
  | .phrase head _ =>
    (spelledHeads head).map fun ts => String.ofList (Text.unwords (ts.map String.toList))
  | _ => []

/-- Words that keywords use up are a spelling of the keywords. -/
theorem mem_spelledHeads {head : List (List String)} {ws : List (List Char)} (hne : ws ≠ [])
    (hwords : ∀ w ∈ ws, Text.IsWord w) (h : readHead head (' ' :: Text.unwords ws) = some []) :
    ∃ ts ∈ spelledHeads head, ts.map String.toList = ws := by
  induction head generalizing ws with
  | nil => simp [readHead] at h
  | cons spellings more ih =>
    obtain ⟨c, rest, t, ht, hcs, _, hsolid, hsep, hmore⟩ := readHead_cons_eq_some h
    obtain ⟨w, vs, rfl⟩ := List.exists_cons_of_ne_nil hne
    have hw := hwords w List.mem_cons_self
    have hvs : ∀ v ∈ vs, Text.IsWord v := fun v hv => hwords v (List.mem_cons_of_mem _ hv)
    -- the line starts with `w` and with `t`, and both end at the first blank
    obtain ⟨tail, htail, hsep'⟩ : ∃ tail, Text.unwords (w :: vs) = w ++ tail ∧
        Text.Separated tail := by
      cases vs with
      | nil => exact ⟨[], (List.append_nil w).symm, Text.separated_nil⟩
      | cons v vs => exact ⟨_, rfl, Text.separated_cons Text.isBlank_space _⟩
    have heq : w ++ tail = t.toList ++ rest := by
      rw [← htail]
      exact (List.cons.inj hcs).2
    have htake := congrArg (List.takeWhile Form.isSolid) heq
    rw [Text.takeWhile_solid_append hw.2 hsep', Text.takeWhile_solid_append hsolid hsep] at htake
    subst htake
    have hrest := List.append_cancel_left heq
    subst hrest
    cases vs with
    | nil =>
      have hnil : tail = [] := List.append_right_eq_self.mp htail.symm
      subst hnil
      cases more with
      | nil => exact ⟨[t], List.mem_flatMap.mpr ⟨t, ht, by simp [spelledHeads]⟩, rfl⟩
      | cons _ _ => simp [readHead] at hmore
    | cons v vs =>
      have htail' : tail = ' ' :: Text.unwords (v :: vs) := List.append_cancel_left htail.symm
      subst htail'
      obtain ⟨ts, hts, hmap⟩ := ih (by simp) hvs hmore
      refine ⟨t :: ts, List.mem_flatMap.mpr ⟨t, ht, List.mem_map.mpr ⟨ts, hts, rfl⟩⟩, ?_⟩
      rw [List.map_cons, hmap]

end Pattern

/-- A reading that writes nothing reads nothing. -/
theorem Takes.eq_nil {os : List Operand} {cs : List Char} (h : Takes os cs []) : cs = [] := by
  generalize hcaps : ([] : Captures) = caps at h
  induction h with
  | nil => rfl
  | skip _ _ ih => exact ih hcaps
  | take _ _ _ _ _ => exact absurd hcaps (by simp)

/-! ## Clauses that say nothing -/

/-- Whether a clause is recognised with no field at all. -/
def silent (clause : String) : Bool :=
  (recognize (· = .condition) clause).any fun m => m.entries.isEmpty

/-- The clauses that are keywords of a rule and nothing else. -/
def bareClauses : List String :=
  ["aigp-metric", "aigrp-metric", "as-path in", "community", "community-length", "destination",
    "destination-prefix in", "esi in", "etag in", "evpn-gateway in", "evpn-originator in",
    "evpn-route-type is", "extcommunity color", "extcommunity rt", "extcommunity seg-nh",
    "extcommunity soo", "large-community", "local-preference", "mac in", "orf prefix in",
    "origin is", "path-type is", "protocol is", "rd in", "rib-has-route in", "route-type is",
    "source in", "source-prefix in", "validation-state is"]

theorem silent_of_bare : ∀ clause ∈ bareClauses, silent clause = true := by
  decide +kernel

theorem bare_of_silent_bareTexts : ∀ rule ∈ catalog, rule.lineClass = .condition →
    ∀ clause ∈ rule.pattern.bareTexts, silent clause = true → clause ∈ bareClauses := by
  decide +kernel

theorem outputs_read : ∀ rule ∈ catalog, rule.lineClass = .condition →
    ∀ output ∈ rule.pattern.outputs, ⟨output.1, .text⟩ ∈ rule.fields := by
  decide +kernel

/-- Whether a rule is written as a phrase and leaves a mapping among the conditions. -/
def Rule.isClause (rule : Rule) : Bool :=
  match rule.parents, rule.pattern, rule.shape with
  | ["conditions"], .phrase _ _, .map _ => true
  | _, _, _ => false

theorem isClause_of_condition : ∀ rule ∈ catalog, rule.lineClass = .condition →
    rule.isClause = true := by
  decide +kernel

theorem Rule.isClause_eq_true {rule : Rule} (h : rule.isClause = true) :
    ∃ head operands fields, rule.parents = ["conditions"] ∧
      rule.pattern = .phrase head operands ∧ rule.shape = .map fields := by
  unfold Rule.isClause at h
  split at h
  · rename_i head operands fields hparents hpattern hshape
    exact ⟨head, operands, fields, hparents, hpattern, hshape⟩
  · simp at h

/-- A captured text that the rule reads is among the entries. -/
theorem captures_eq_nil {rule : Rule}
    (hread : ∀ output ∈ rule.pattern.outputs, ⟨output.1, .text⟩ ∈ rule.fields) {cs : List Char}
    {caps : Captures} (hcaps : rule.pattern.captures cs = some caps) {m : Match}
    (hm : rule.match? cs = some m) (h : m.entries = []) : caps = [] := by
  cases caps with
  | nil => rfl
  | cons entry more =>
    obtain ⟨form, hform, _⟩ := Pattern.accepts_of_captures hcaps entry List.mem_cons_self
    have hfield := hread _ hform
    rw [Rule.match?, hcaps, Option.map_some] at hm
    have hmem : (entry.1, Value.str entry.2) ∈ m.entries := by
      rw [← Option.some.inj hm]
      refine List.mem_filterMap.mpr ⟨_, List.mem_map.mpr ⟨_, hfield, rfl⟩, ?_⟩
      simp [Field.read, Entries.get?, FieldValue.value?]
    rw [h] at hmem
    exact absurd hmem (by simp)

theorem exists_of_recognize_clause {clause : String} {m : Match}
    (h : recognize (· = .condition) clause = some m) :
    ∃ rule ∈ catalog, rule.lineClass = .condition ∧
      rule.match? (Text.trim clause.toList) = some m := by
  obtain ⟨rule, hrule, hclass, hmatch⟩ := exists_of_recognize h
  exact ⟨rule, hrule, by simpa using hclass, hmatch⟩

theorem silent_of_recognize {clause : String} {m : Match}
    (h : recognize (· = .condition) clause = some m) : silent clause = m.entries.isEmpty := by
  rw [silent, h, Option.any_some]

theorem silent_iff_bare {clause : String} (hspaced : Text.Spaced clause.toList) :
    silent clause = true ↔ clause ∈ bareClauses := by
  refine ⟨fun h => ?_, silent_of_bare clause⟩
  obtain ⟨m, hm⟩ : ∃ m, recognize (· = .condition) clause = some m := by
    cases hm : recognize (· = .condition) clause with
    | none => simp [silent, hm] at h
    | some m => exact ⟨m, rfl⟩
  have hentries : m.entries = [] := by
    rw [silent_of_recognize hm] at h
    simpa using h
  obtain ⟨rule, hrule, hclass, hmatch⟩ := exists_of_recognize_clause hm
  obtain ⟨head, operands, fields, _, hpattern, _⟩ :=
    Rule.isClause_eq_true (isClause_of_condition rule hrule hclass)
  obtain ⟨caps, hcaps, _⟩ := Option.map_eq_some_iff.mp hmatch
  have hnil := captures_eq_nil (outputs_read rule hrule hclass) hcaps hmatch hentries
  subst hnil
  -- no operand is there, so the keywords are the whole clause
  rw [hspaced.trim_eq, hpattern] at hcaps
  obtain ⟨after, hhead, hread⟩ := Option.bind_eq_some_iff.mp hcaps
  rw [(takes_of_readOperands hread).eq_nil] at hhead
  obtain ⟨ws, hne, hwords, hclause⟩ := hspaced
  rw [hclause] at hhead
  obtain ⟨ts, hts, hmap⟩ := Pattern.mem_spelledHeads hne hwords hhead
  refine bare_of_silent_bareTexts rule hrule hclass clause ?_ h
  rw [hpattern]
  refine List.mem_map.mpr ⟨ts, hts, ?_⟩
  rw [hmap, ← hclause, String.ofList_toList]

theorem spaced_clauses {condition clause : String} (h : clause ∈ clauses condition) :
    Text.Spaced clause.toList := by
  obtain ⟨cs, hcs, rfl⟩ := List.mem_map.mp h
  rw [String.toList_ofList]
  exact Condition.spaced_clausesOf _ cs hcs

end RoutePolicy
