import RoutePolicy.Proofs.ClosingConnective
import RoutePolicy.Proofs.RuleOrder
import RoutePolicy.Proofs.Segmentation

/-!
# Branch lines

Which lines open a branch or an `else`, said by their first words, and which condition the line of a
branch has, said by how the line is put together.

* `WithoutThen`            a text, and what is left of it without a closing `then`;
* `dropThen_eq_iff`        this is what `dropThen` computes;
* `condition?_eq_some_iff` a branch line is its keyword, blanks, and a text that has the condition;
* `exists_conditional_iff` such a line is one that has words behind its keyword;
* `boundary?_eq`           `if` is asked first, then `elseif`, then `else`.
-/

namespace RoutePolicy

/-! ## A closing `then` -/

/-- What is left of a text without a closing `then`. -/
inductive WithoutThen (text : List Char) : List Char → Prop where
  /-- the word goes, with the blanks before it, where a word stands before them -/
  | dropped {condition gap : List Char} :
      text = condition ++ gap ++ "then".toList → condition ≠ [] →
      Text.trimEnd condition = condition → gap ≠ [] → Text.Blanks gap → WithoutThen text condition
  /-- there is no such word -/
  | kept : (∀ ws, Text.words text = ws ++ ["then".toList] → ws = []) → WithoutThen text text

theorem isWord_then : Text.IsWord "then".toList := by
  decide

namespace Pattern

theorem dropThen_closed {b : Char} (hb : Text.isBlank b = true) (cs : List Char) :
    dropThen (cs ++ b :: "then".toList) = Text.trimEnd cs := by
  have hrev : (cs ++ b :: "then".toList).reverse = "then".toList.reverse ++ b :: cs.reverse := by
    simp
  rw [dropThen, hrev, afterText_append]
  simp [hb]

theorem dropThen_open {cs : List Char}
    (h : ∀ front b, Text.isBlank b = true → cs ≠ front ++ b :: "then".toList) :
    dropThen cs = cs := by
  rw [dropThen]
  split
  · rename_i b before hafter
    rw [if_neg]
    intro hb
    have hcs := congrArg List.reverse (afterText_eq_some_iff.mp hafter)
    exact h before.reverse b hb (by simpa using hcs)
  · rfl

end Pattern

section
variable {text : List Char} (htrim : Text.trim text = text)
include htrim

/-- A blank inside a trimmed text has something before it. -/
theorem head_of_blank {front rest : List Char} {b : Char} (hb : Text.isBlank b = true)
    (hsplit : text = front ++ b :: rest) : ∃ c cs, front = c :: cs ∧ Text.isBlank c = false := by
  subst hsplit
  have hstart := Text.trimStart_of_trim htrim
  cases front with
  | nil =>
    rw [List.nil_append] at hstart
    rw [Text.trimStart_head_solid hstart] at hb
    cases hb
  | cons c cs => exact ⟨c, cs, rfl, Text.trimStart_head_solid hstart⟩

theorem withoutThen_dropThen : WithoutThen text (Pattern.dropThen text) := by
  by_cases hclosed : ∃ front b, Text.isBlank b = true ∧ text = front ++ b :: "then".toList
  · obtain ⟨front, b, hb, hsplit⟩ := hclosed
    obtain ⟨c, cs, hfront, hc⟩ := head_of_blank htrim hb hsplit
    obtain ⟨gap, hgap, hfrontSplit⟩ := Text.exists_blanks_trimEnd front
    rw [hsplit, Pattern.dropThen_closed hb, ← hsplit]
    have hsplit' : text = Text.trimEnd front ++ (gap ++ [b]) ++ "then".toList := by
      rw [← List.append_assoc, ← hfrontSplit, List.append_assoc, hsplit, List.singleton_append]
    have hne : Text.trimEnd front ≠ [] := by
      rw [hfront, Text.trimEnd_cons_solid hc]
      exact List.cons_ne_nil _ _
    exact .dropped hsplit' hne (Text.trimEnd_trimEnd front) (by simp) (hgap.concat hb)
  · have hopen : ∀ front b, Text.isBlank b = true → text ≠ front ++ b :: "then".toList :=
      fun front b hb hsplit => hclosed ⟨front, b, hb, hsplit⟩
    rw [Pattern.dropThen_open hopen]
    refine .kept fun ws hwords => ?_
    obtain ⟨front, b, hb, hsplit⟩ := Text.eq_append_of_getLast?_words (Text.trimEnd_of_trim htrim)
      (by rw [hwords, List.getLast?_concat])
    cases front with
    | nil =>
      -- the word is all of the text
      rw [(List.cons.inj hsplit).2, Text.words_word isWord_then] at hwords
      exact List.append_left_eq_self.mp hwords.symm
    | cons c front => exact absurd (List.cons.inj hsplit).2 (hopen front b hb)

theorem dropThen_eq_iff {condition : List Char} :
    Pattern.dropThen text = condition ↔ WithoutThen text condition := by
  constructor
  · rintro rfl
    exact withoutThen_dropThen htrim
  · intro h
    cases h with
    | @dropped _ gap hsplit _ hend hgap hblanks =>
      rcases List.eq_nil_or_concat gap with rfl | ⟨gap, b, rfl⟩
      · exact absurd rfl hgap
      · have hb : Text.isBlank b = true := hblanks b (by simp)
        have hinit : Text.Blanks gap := fun d hd => hblanks d (by simp [hd])
        have hclosed : text = (condition ++ gap) ++ b :: "then".toList := by simpa using hsplit
        rw [hclosed, Pattern.dropThen_closed hb, hinit.trimEnd_append, hend]
    | kept hwords =>
      refine Pattern.dropThen_open fun front b hb hsplit => ?_
      obtain ⟨c, cs, rfl, hc⟩ := head_of_blank htrim hb hsplit
      have hcut : Text.words text = Text.words (c :: cs) ++ ["then".toList] := by
        rw [hsplit, Text.words_append hb, Text.words_word isWord_then]
      exact Text.words_ne_nil_of_solid hc cs (hwords _ hcut)

end

namespace WithoutThen
variable {text condition : List Char} (h : WithoutThen text condition)
include h

theorem ne_nil (htext : text ≠ []) : condition ≠ [] := by
  cases h with
  | dropped _ hne => exact hne
  | kept => exact htext

theorem isPrefix : condition <+: text := by
  cases h with
  | dropped hsplit =>
    rw [hsplit, List.append_assoc]
    exact List.prefix_append condition _
  | kept => exact List.prefix_refl text

theorem trim_condition (htrim : Text.trim text = text) : Text.trim condition = condition := by
  cases h with
  | kept => exact htrim
  | dropped hsplit hne hend =>
    obtain ⟨c, cs, rfl⟩ := List.exists_cons_of_ne_nil hne
    have hstart := Text.trimStart_of_trim htrim
    rw [hsplit] at hstart
    rw [Text.trim, Text.trimStart_cons_solid (Text.trimStart_head_solid hstart), hend]

end WithoutThen

/-! ## Lines with a condition -/

/-- A line that does not start with a blank starts with its first word. -/
theorem Text.exists_of_words_cons {cs w : List Char} {ws : List (List Char)}
    (hstart : trimStart cs = cs) (h : words cs = w :: ws) :
    ∃ rest, cs = w ++ rest ∧ Separated rest ∧ words rest = ws := by
  cases cs with
  | nil => cases h
  | cons c tail =>
    have hc : isBlank c = false := trimStart_head_solid hstart
    have hsolid : ∀ d ∈ (c :: tail).takeWhile Form.isSolid, isBlank d = false :=
      solid_of_all List.all_takeWhile
    have hword : IsWord ((c :: tail).takeWhile Form.isSolid) := by
      refine ⟨?_, hsolid⟩
      rw [List.takeWhile_cons_of_pos (by simp [Form.isSolid, hc])]
      exact List.cons_ne_nil _ _
    have hsplit := List.takeWhile_append_dropWhile (p := Form.isSolid) (l := c :: tail)
    have hsep := separated_dropWhile (c :: tail)
    rw [← hsplit, words_word_append hword hsep] at h
    obtain ⟨rfl, rfl⟩ := List.cons.inj h
    exact ⟨_, hsplit.symm, hsep, rfl⟩

theorem words_of_behind {keyword line text : List Char} (hkeyword : Text.IsWord keyword)
    (h : Pattern.Behind keyword line text) : Text.words line = keyword :: Text.words text := by
  obtain ⟨gap, rfl, hgap, hblanks, _, hstart⟩ := h
  obtain ⟨b, gap, rfl⟩ := List.exists_cons_of_ne_nil hgap
  have hsep : Text.Separated (b :: gap ++ text) :=
    Text.separated_cons (hblanks b List.mem_cons_self) _
  rw [List.append_assoc, Text.words_word_append hkeyword hsep, ← Text.words_trimStart,
    hblanks.trimStart_append, hstart]

theorem exists_behind_of_words {line keyword w : List Char} {ws : List (List Char)}
    (hstart : Text.trimStart line = line) (h : Text.words line = keyword :: w :: ws) :
    ∃ text, Pattern.Behind keyword line text := by
  obtain ⟨rest, hline, hsep, hrest⟩ := Text.exists_of_words_cons hstart h
  cases rest with
  | nil => cases hrest
  | cons c tail =>
    have hc : Text.isBlank c = true := hsep
    rw [Text.words, if_pos hc] at hrest
    have htext : Text.trimStart tail ≠ [] := by
      refine Text.trimStart_ne_nil ?_
      rw [hrest]
      exact List.cons_ne_nil w ws
    exact ⟨_, Pattern.behind_iff.mpr
      ⟨c, tail, Pattern.afterText_eq_some_iff.mpr hline, hc, rfl, htext⟩⟩

/-- A line that is the keyword, blanks, and a text that has this condition. -/
def Conditional (keyword line condition : List Char) : Prop :=
  ∃ text, Pattern.Behind keyword line text ∧ WithoutThen text condition

/-- the condition that the rule for a keyword reads -/
def condition? (keyword : String) (line : List Char) : Option String :=
  ((Catalog.conditional keyword).pattern.captures line).bind (Entries.get? "condition")

theorem match?_conditional (keyword : String) (line : List Char) :
    (Catalog.conditional keyword).match? line
      = (condition? keyword line).map fun s =>
          { rule := Catalog.conditional keyword, fields := [("condition", .text s)] } := by
  rw [Rule.match?, condition?]
  cases hcaps : (Catalog.conditional keyword).pattern.captures line with
  | none => rfl
  | some caps =>
    obtain ⟨text, _, _, rfl⟩ := Pattern.captures_branch_iff.mp hcaps
    rfl

section
variable {keyword : String} {line : List Char} (htrim : Text.trim line = line)
include htrim

theorem condition?_eq_some_iff (hnewline : '\n' ∉ line) {condition : String} :
    condition? keyword line = some condition ↔
      Conditional keyword.toList line condition.toList := by
  constructor
  · intro h
    obtain ⟨caps, hcaps, hget⟩ := Option.bind_eq_some_iff.mp h
    obtain ⟨text, hbehind, _, rfl⟩ := Pattern.captures_branch_iff.mp hcaps
    have hcondition : String.ofList (Pattern.dropThen text) = condition := Option.some.inj hget
    rw [← hcondition, String.toList_ofList]
    exact ⟨text, hbehind, withoutThen_dropThen (hbehind.trim_text htrim)⟩
  · rintro ⟨text, hbehind, hwithout⟩
    have hdrop := (dropThen_eq_iff (hbehind.trim_text htrim)).mpr hwithout
    obtain ⟨gap, hline, _, _, htext, _⟩ := id hbehind
    have hsubset : ∀ c ∈ condition.toList, c ∈ line := by
      intro c hc
      rw [hline]
      exact List.mem_append_right _ (hwithout.isPrefix.subset hc)
    have hcaps : (Catalog.conditional keyword).pattern.captures line
        = some [("condition", condition)] := by
      refine Pattern.captures_branch_iff.mpr ⟨text, hbehind, ?_, ?_⟩
      · rw [hdrop]
        exact ⟨hwithout.ne_nil htext, fun hmem => hnewline (hsubset _ hmem)⟩
      · rw [hdrop, String.ofList_toList]
    rw [condition?, hcaps]
    rfl

theorem Conditional.trim_condition {condition : List Char}
    (h : Conditional keyword.toList line condition) :
    condition ≠ [] ∧ Text.trim condition = condition := by
  obtain ⟨text, hbehind, hwithout⟩ := h
  obtain ⟨c, rest, rfl, _⟩ := hbehind.head_solid
  exact ⟨hwithout.ne_nil (List.cons_ne_nil c rest),
    hwithout.trim_condition (hbehind.trim_text htrim)⟩

theorem exists_conditional_iff (hkeyword : Text.IsWord keyword.toList) :
    (∃ condition, Conditional keyword.toList line condition) ↔
      ∃ w ws, Text.words line = keyword.toList :: w :: ws := by
  constructor
  · rintro ⟨_, text, hbehind, _⟩
    obtain ⟨c, rest, rfl, hc⟩ := hbehind.head_solid
    obtain ⟨w, ws, hws⟩ := List.exists_cons_of_ne_nil (Text.words_ne_nil_of_solid hc rest)
    exact ⟨w, ws, by rw [words_of_behind hkeyword hbehind, hws]⟩
  · rintro ⟨w, ws, hwords⟩
    obtain ⟨text, hbehind⟩ := exists_behind_of_words (Text.trimStart_of_trim htrim) hwords
    exact ⟨_, text, hbehind, withoutThen_dropThen (hbehind.trim_text htrim)⟩

end

/-! ## Boundaries -/

theorem match?_elseBranch (cs : List Char) :
    Catalog.elseBranch.match? cs
      = if "else".toList <+: cs then some ⟨Catalog.elseBranch, [("else", .flag true)]⟩
        else none := by
  split
  · rename_i hprefix
    obtain ⟨after, rfl⟩ := hprefix
    have hcaps : Catalog.elseBranch.pattern.captures ("else".toList ++ after) = some [] := by
      rw [Catalog.elseBranch, Pattern.captures, Pattern.afterText_append, Option.map_some]
    rw [Rule.match?, hcaps]
    rfl
  · rename_i hprefix
    cases hmatch : Catalog.elseBranch.match? cs with
    | none => rfl
    | some m => exact absurd (elseBranch_match?_isSome_iff.mp (by rw [hmatch]; rfl)) hprefix

theorem boundary?_eq (line : String) :
    boundary? line
      = (((condition? "if" (Text.trim line.toList)).map (Boundary.branch .ifThen)).or
          ((condition? "elseif" (Text.trim line.toList)).map (Boundary.branch .elseIf))).or
        (if "else".toList <+: Text.trim line.toList then some .otherwise else none) := by
  rw [boundary?, recognize_class]
  generalize Text.trim line.toList = cs
  simp only [Catalog.ofClass, Catalog.branches, Catalog.ifBranch, Catalog.elseIfBranch,
    List.findSome?_cons, List.findSome?_nil, match?_conditional, match?_elseBranch]
  cases condition? "if" cs with
  | some condition => rfl
  | none =>
    cases condition? "elseif" cs with
    | some condition => rfl
    | none =>
      by_cases hprefix : "else".toList <+: cs
      · rw [if_pos hprefix, if_pos hprefix]
        rfl
      · rw [if_neg hprefix, if_neg hprefix]
        rfl

section
variable {line : String}

theorem condition?_if_of_else {cs : List Char} (h : "else".toList <+: cs) :
    condition? "if" cs = none := by
  cases hif : condition? "if" cs with
  | none => rfl
  | some condition =>
    -- `if` and `else` differ in their first letter
    obtain ⟨after, hline⟩ := starts_of_conditional (by rw [match?_conditional, hif]; rfl)
    obtain ⟨after', rfl⟩ := h
    exact absurd (congrArg List.head? hline) (by simp)

theorem else_of_condition?_elseif {cs : List Char} {condition : String}
    (h : condition? "elseif" cs = some condition) : "else".toList <+: cs := by
  refine elseBranch_match?_isSome_iff.mp (elseBranch_of_elseIfBranch ?_)
  rw [Catalog.elseIfBranch, match?_conditional, h]
  rfl

theorem boundary?_eq_branch_iff {kind : BranchKind} {condition : String} :
    boundary? line = some (.branch kind condition) ↔
      condition? kind.word (Text.trim line.toList) = some condition := by
  rw [boundary?_eq]
  cases kind with
  | ifThen =>
    show _ ↔ condition? "if" (Text.trim line.toList) = some condition
    cases condition? "if" (Text.trim line.toList) with
    | some _ => simp
    | none =>
      cases condition? "elseif" (Text.trim line.toList) with
      | some _ => simp
      | none => split <;> simp
  | elseIf =>
    show _ ↔ condition? "elseif" (Text.trim line.toList) = some condition
    cases helseIf : condition? "elseif" (Text.trim line.toList) with
    | some _ => simp [condition?_if_of_else (else_of_condition?_elseif helseIf)]
    | none =>
      cases condition? "if" (Text.trim line.toList) with
      | some _ => simp
      | none => split <;> simp

theorem boundary?_eq_otherwise_iff :
    boundary? line = some .otherwise ↔ "else".toList <+: Text.trim line.toList ∧
      condition? "elseif" (Text.trim line.toList) = none := by
  rw [boundary?_eq]
  by_cases hprefix : "else".toList <+: Text.trim line.toList
  · rw [condition?_if_of_else hprefix, if_pos hprefix, and_iff_right hprefix]
    cases condition? "elseif" (Text.trim line.toList) <;> simp
  · refine iff_of_false ?_ fun h => hprefix h.1
    rw [if_neg hprefix]
    cases condition? "if" (Text.trim line.toList) <;>
      cases condition? "elseif" (Text.trim line.toList) <;> simp

end

/-- The first word of the line opens this kind of branch, and more words follow. -/
def Opens (kind : BranchKind) (line : String) : Prop :=
  ∃ w ws, Text.words line.toList = kind.word.toList :: w :: ws

section
variable {line : String} (hnewline : '\n' ∉ line.toList)
include hnewline

theorem boundary?_iff_conditional {kind : BranchKind} {condition : String} :
    boundary? line = some (.branch kind condition) ↔
      Conditional kind.word.toList (Text.trim line.toList) condition.toList := by
  have hnewline' : '\n' ∉ Text.trim line.toList := fun hmem => hnewline (Text.mem_of_mem_trim hmem)
  rw [boundary?_eq_branch_iff, condition?_eq_some_iff (Text.trim_trim line.toList) hnewline']

theorem exists_boundary?_iff {kind : BranchKind} :
    (∃ condition, boundary? line = some (.branch kind condition)) ↔ Opens kind line := by
  have hword : Text.IsWord kind.word.toList := by cases kind <;> decide
  rw [Opens, ← Text.words_trim, ← exists_conditional_iff (Text.trim_trim line.toList) hword]
  constructor
  · rintro ⟨condition, h⟩
    exact ⟨condition.toList, (boundary?_iff_conditional hnewline).mp h⟩
  · rintro ⟨condition, h⟩
    refine ⟨String.ofList condition, (boundary?_iff_conditional hnewline).mpr ?_⟩
    rwa [String.toList_ofList]

theorem boundary?_otherwise_iff :
    boundary? line = some .otherwise ↔
      "else".toList <+: Text.trim line.toList ∧ ¬ Opens .elseIf line := by
  rw [boundary?_eq_otherwise_iff, ← exists_boundary?_iff hnewline, not_exists,
    Option.eq_none_iff_forall_ne_some]
  refine and_congr_right' (forall_congr' fun condition => not_congr ?_)
  rw [boundary?_eq_branch_iff, BranchKind.word]

theorem boundary?_none_iff :
    boundary? line = none ↔
      (∀ kind, ¬ Opens kind line) ∧ ¬ "else".toList <+: Text.trim line.toList := by
  constructor
  · intro h
    have hnot : ∀ kind, ¬ Opens kind line := by
      intro kind hkind
      obtain ⟨condition, hcondition⟩ := (exists_boundary?_iff hnewline).mpr hkind
      rw [h] at hcondition
      cases hcondition
    refine ⟨hnot, fun helse => ?_⟩
    rw [(boundary?_otherwise_iff hnewline).mpr ⟨helse, hnot .elseIf⟩] at h
    cases h
  · rintro ⟨hnot, helse⟩
    cases h : boundary? line with
    | none => rfl
    | some boundary =>
      cases boundary with
      | branch kind condition =>
        exact absurd ((exists_boundary?_iff hnewline).mp ⟨condition, h⟩) (hnot kind)
      | otherwise => exact absurd ((boundary?_otherwise_iff hnewline).mp h).1 helse

end

/-- **Boundaries are recognised exactly.**  A line opens a branch when its first word is `if` or
`elseif` and more words follow; it opens an `else` when it starts with these letters and opens no
branch; no other line is a boundary.  The condition is the text behind the keyword without a closing
`then`; it is not empty, and no blank is at its ends. -/
theorem boundary?_exact {line : String} (hnewline : '\n' ∉ line.toList) :
    (∀ kind, (∃ condition, boundary? (Line.trim line) = some (.branch kind condition)) ↔
      Opens kind line) ∧
    (boundary? (Line.trim line) = some .otherwise ↔
      "else".toList <+: Text.trim line.toList ∧ ¬ Opens .elseIf line) ∧
    (boundary? (Line.trim line) = none ↔
      (∀ kind, ¬ Opens kind line) ∧ ¬ "else".toList <+: Text.trim line.toList) ∧
    (∀ kind condition, boundary? (Line.trim line) = some (.branch kind condition) ↔
      Conditional kind.word.toList (Text.trim line.toList) condition.toList) ∧
    ∀ kind condition, boundary? (Line.trim line) = some (.branch kind condition) →
      condition ≠ "" ∧ Line.trim condition = condition := by
  rw [boundary?_trim]
  refine ⟨fun kind => exists_boundary?_iff hnewline, boundary?_otherwise_iff hnewline,
    boundary?_none_iff hnewline, fun kind condition => boundary?_iff_conditional hnewline, ?_⟩
  intro kind condition h
  have hconditional := (boundary?_iff_conditional hnewline).mp h
  obtain ⟨hne, hends⟩ := hconditional.trim_condition (Text.trim_trim line.toList)
  refine ⟨fun hnil => hne ?_, ?_⟩
  · rw [hnil]
    rfl
  · rw [Line.trim, hends, String.ofList_toList]

/-- A line with two words `then` and blanks of several kinds. -/
def twiceClosed : String :=
  " elseif\t \u00a0med  then\u3000then "

theorem boundary?_exact_twiceClosed :
    '\n' ∉ twiceClosed.toList ∧
      boundary? (Line.trim twiceClosed) = some (.branch .elseIf "med  then") := by
  have hnewline : '\n' ∉ twiceClosed.toList := by decide +kernel
  obtain ⟨_, _, _, hbranch, _⟩ := boundary?_exact hnewline
  have hbehind : Pattern.Behind "elseif".toList (Text.trim twiceClosed.toList)
      "med  then\u3000then".toList := by
    refine ⟨"\t \u00a0".toList, ?_⟩
    decide +kernel
  have hwithout : WithoutThen "med  then\u3000then".toList "med  then".toList := by
    rw [← dropThen_eq_iff (by decide +kernel)]
    decide +kernel
  exact ⟨hnewline, (hbranch .elseIf "med  then").mpr ⟨_, hbehind, hwithout⟩⟩

end RoutePolicy
