import RoutePolicy.Proofs.ClauseText

/-!
# The grammar of conditions

A condition is written by a small grammar: terms with `and` or `or` between them, where a term is an
atom or a whole condition in parentheses.  An atom is any balanced text that does not itself look
like a group and has its connectives, if any, inside parentheses.

* `Expr`, `Term`, `Atom`     the grammar; an atom carries the proofs that it is one;
* `Expr.text`, `Expr.tokens` how an expression is written, and what stands in it, left to right;
* `closedAtoms`              the atoms in reading order, each with the connective that comes next;
* `clausesOf_text`           cutting the text of an expression into clauses gives just these.

The cut works on words and depths, so the first half says what the words and the depths of a written
expression are: a term is balanced and has no connective at depth zero (`Uncut`), hence the cut
takes it as a whole (`cut_uncut`).
-/

namespace RoutePolicy

/-! ## Words of a text that was put together -/

namespace Text

instance (w : List Char) : Decidable (IsWord w) :=
  decidable_of_iff (w ≠ [] ∧ (w.all fun c => !isBlank c) = true) (by simp [IsWord])

theorem words_append {b : Char} (hb : isBlank b = true) (x y : List Char) :
    words (x ++ b :: y) = words x ++ words y := by
  induction x with
  | nil =>
    show words (b :: y) = words y
    rw [words, if_pos hb]
  | cons c x ih =>
    rw [List.cons_append, words, words]
    cases hc : isBlank c with
    | true => simpa using ih
    | false =>
      cases x with
      | nil => simp [words, hb]
      | cons d x =>
        cases hd : isBlank d with
        | true => simpa [hd] using ih
        | false =>
          obtain ⟨w, ws, hws⟩ := List.exists_cons_of_ne_nil (words_ne_nil_of_solid hd x)
          rw [hws] at ih
          simp only [List.cons_append] at ih
          simp [hd, ih, hws, pushFirst]

theorem words_word {w : List Char} (h : IsWord w) : words w = [w] := by
  obtain ⟨hne, hsolid⟩ := h
  induction w with
  | nil => exact absurd rfl hne
  | cons c w ih =>
    have hc : isBlank c = false := hsolid c List.mem_cons_self
    cases w with
    | nil => simp [words, hc]
    | cons d w =>
      have hd : isBlank d = false := hsolid d (by simp)
      rw [words, ih (by simp) fun e he => hsolid e (List.mem_cons_of_mem _ he)]
      simp [hc, hd, pushFirst]

theorem words_unwords {ws : List (List Char)} (h : ∀ w ∈ ws, IsWord w) :
    words (unwords ws) = ws := by
  induction ws with
  | nil => rfl
  | cons w ws ih =>
    have hw := h w List.mem_cons_self
    have ih' := ih fun v hv => h v (List.mem_cons_of_mem _ hv)
    by_cases hws : ws = []
    · subst hws
      exact words_word hw
    · rw [unwords_cons w hws, words_append isBlank_space, words_word hw, ih']
      rfl

theorem unwords_append {ws vs : List (List Char)} (hws : ws ≠ []) (hvs : vs ≠ []) :
    unwords (ws ++ vs) = unwords ws ++ ' ' :: unwords vs := by
  induction ws with
  | nil => exact absurd rfl hws
  | cons w ws ih =>
    by_cases hnil : ws = []
    · subst hnil
      exact unwords_cons w hvs
    · rw [List.cons_append, unwords_cons w (by simp [hnil]), ih hnil, unwords_cons w hnil,
        List.append_assoc, List.cons_append]

namespace Spaced
variable {cs ds : List Char}

theorem unwords_words (h : Spaced cs) : unwords (words cs) = cs := by
  obtain ⟨ws, _, hwords, rfl⟩ := h
  rw [words_unwords hwords]

theorem words_ne_nil (h : Spaced cs) : words cs ≠ [] := by
  obtain ⟨ws, hne, hwords, rfl⟩ := h
  rwa [words_unwords hwords]

theorem append (h : Spaced cs) (h' : Spaced ds) : Spaced (cs ++ ' ' :: ds) := by
  obtain ⟨ws, hws, hwords, rfl⟩ := h
  obtain ⟨vs, hvs, hwords', rfl⟩ := h'
  refine ⟨ws ++ vs, by simp [hws], fun w hw => ?_, (unwords_append hws hvs).symm⟩
  rcases List.mem_append.mp hw with hw | hw
  · exact hwords w hw
  · exact hwords' w hw

theorem cons {c : Char} (hc : isBlank c = false) (h : Spaced cs) : Spaced (c :: cs) := by
  obtain ⟨ws, hne, hwords, rfl⟩ := h
  obtain ⟨w, ws, rfl⟩ := List.exists_cons_of_ne_nil hne
  have hw := hwords w List.mem_cons_self
  have hcw : IsWord (c :: w) := by
    refine ⟨by simp, fun d hd => ?_⟩
    rcases List.mem_cons.mp hd with rfl | hd
    · exact hc
    · exact hw.2 d hd
  refine ⟨(c :: w) :: ws, by simp, fun v hv => ?_, ?_⟩
  · rcases List.mem_cons.mp hv with rfl | hv
    · exact hcw
    · exact hwords v (List.mem_cons_of_mem _ hv)
  · cases ws <;> rfl

theorem snoc {c : Char} (hc : isBlank c = false) (h : Spaced cs) : Spaced (cs ++ [c]) := by
  obtain ⟨ws, hne, hwords, rfl⟩ := h
  induction ws with
  | nil => exact absurd rfl hne
  | cons w ws ih =>
    have hw := hwords w List.mem_cons_self
    by_cases hws : ws = []
    · subst hws
      have hwc : IsWord (w ++ [c]) := by
        refine ⟨by simp, fun d hd => ?_⟩
        rcases List.mem_append.mp hd with hd | hd
        · exact hw.2 d hd
        · rw [List.mem_singleton.mp hd]
          exact hc
      exact ⟨[w ++ [c]], by simp, by simpa using hwc, rfl⟩
    · have hrest := ih hws fun v hv => hwords v (List.mem_cons_of_mem _ hv)
      have hfirst : Spaced w := ⟨[w], by simp, by simpa using hw, rfl⟩
      rw [unwords_cons w hws, List.append_assoc, List.cons_append]
      exact hfirst.append hrest

end Spaced

end Text

namespace Condition

/-! ## Balanced texts -/

/-- Every closing parenthesis has an opening one before it, and there are as many of both. -/
def Balanced (cs : List Char) : Prop :=
  (∀ front, front <+: cs → front.count ')' ≤ front.count '(') ∧ cs.count ')' = cs.count '('

theorem forall_prefix_cons {P : List Char → Prop} {c : Char} {cs : List Char} :
    (∀ front, front <+: c :: cs → P front) ↔ P [] ∧ ∀ front, front <+: cs → P (c :: front) := by
  constructor
  · intro h
    exact ⟨h [] List.nil_prefix, fun front hf => h _ (List.cons_prefix_cons.mpr ⟨rfl, hf⟩)⟩
  · rintro ⟨hnil, hcons⟩ front hf
    rcases List.prefix_cons_iff.mp hf with rfl | ⟨rest, rfl, hrest⟩
    · exact hnil
    · exact hcons rest hrest

theorem count_open_close (cs : List Char) : (')' :: cs).count '(' = cs.count '(' :=
  List.count_cons_of_ne (by decide)

theorem count_close_open (cs : List Char) : ('(' :: cs).count ')' = cs.count ')' :=
  List.count_cons_of_ne (by decide)

theorem balancedFrom_iff (depth : Nat) (cs : List Char) :
    balancedFrom depth cs = true ↔
      (∀ front, front <+: cs → front.count ')' ≤ depth + front.count '(') ∧
        cs.count ')' = depth + cs.count '(' := by
  induction cs generalizing depth with
  | nil =>
    rw [balancedFrom, decide_eq_true_iff]
    constructor
    · rintro rfl
      exact ⟨fun front h => by simp [List.prefix_nil.mp h], rfl⟩
    · rintro ⟨_, h⟩
      simpa using h.symm
  | cons c cs ih =>
    rw [forall_prefix_cons, balancedFrom]
    by_cases hclose : c = ')'
    · subst hclose
      rw [if_pos rfl, Bool.and_eq_true, ih, decide_eq_true_iff]
      simp only [List.count_nil, List.count_cons_self, count_open_close]
      constructor
      · rintro ⟨hdepth, hfronts, hcount⟩
        refine ⟨⟨by omega, fun front hf => ?_⟩, by omega⟩
        have := hfronts front hf
        omega
      · rintro ⟨⟨_, hfronts⟩, hcount⟩
        have hpos : 0 + 1 ≤ depth + 0 := hfronts [] List.nil_prefix
        refine ⟨by omega, fun front hf => ?_, by omega⟩
        have := hfronts front hf
        omega
    · rw [if_neg hclose, ih]
      by_cases hopen : c = '('
      · subst hopen
        have hdepth : deepen depth '(' = depth + 1 := rfl
        simp only [hdepth, List.count_nil, List.count_cons_self, count_close_open]
        constructor
        · rintro ⟨hfronts, hcount⟩
          refine ⟨⟨by omega, fun front hf => ?_⟩, by omega⟩
          have := hfronts front hf
          omega
        · rintro ⟨⟨_, hfronts⟩, hcount⟩
          refine ⟨fun front hf => ?_, by omega⟩
          have := hfronts front hf
          omega
      · simp [deepen, hopen, hclose]

theorem balanced_iff {cs : List Char} : balanced cs = true ↔ Balanced cs := by
  rw [balanced, balancedFrom_iff]
  simp [Balanced]

instance (cs : List Char) : Decidable (Balanced cs) :=
  decidable_of_iff _ balanced_iff

/-- Behind a balanced text the reader is as deep as before. -/
theorem balancedFrom_append (depth : Nat) {opened : Nat} {cs : List Char}
    (h : balancedFrom opened cs = true) (more : List Char) :
    balancedFrom (depth + opened) (cs ++ more) = balancedFrom depth more := by
  induction cs generalizing opened with
  | nil =>
    have hzero : opened = 0 := by simpa [balancedFrom] using h
    rw [hzero]
    rfl
  | cons c cs ih =>
    rw [balancedFrom] at h
    rw [List.cons_append, balancedFrom]
    by_cases hclose : c = ')'
    · rw [if_pos hclose, Bool.and_eq_true, decide_eq_true_iff] at h
      obtain ⟨hne, h⟩ := h
      have hsub : depth + opened - 1 = depth + (opened - 1) := by omega
      have hpos : depth + opened ≠ 0 := by omega
      rw [if_pos hclose, hsub, ih h, decide_eq_true hpos, Bool.true_and]
    · rw [if_neg hclose] at h
      have hdeepen : deepen (depth + opened) c = depth + deepen opened c := by
        simp only [deepen, if_neg hclose]
        split <;> omega
      rw [if_neg hclose, hdeepen, ih h]

theorem balanced_append {cs ds : List Char} (h : balanced cs = true) (h' : balanced ds = true) :
    balanced (cs ++ ds) = true :=
  (balancedFrom_append 0 h ds).trans h'

theorem balanced_group {cs : List Char} (h : balanced cs = true) :
    balanced ('(' :: cs ++ [')']) = true :=
  (balancedFrom_append 1 h [')']).trans rfl

/-- In front of a balanced rest, the depth is the number of parentheses that are open. -/
theorem foldl_deepen {depth : Nat} {cs : List Char} (more : List Char)
    (h : balancedFrom depth (cs ++ more) = true) :
    cs.foldl deepen depth + cs.count ')' = depth + cs.count '(' := by
  induction cs generalizing depth with
  | nil => rfl
  | cons c cs ih =>
    rw [List.cons_append, balancedFrom] at h
    by_cases hclose : c = ')'
    · subst hclose
      rw [if_pos rfl, Bool.and_eq_true, decide_eq_true_iff] at h
      obtain ⟨hpos, hrest⟩ := h
      have ih' := ih hrest
      rw [List.foldl_cons, List.count_cons_self, count_open_close]
      show cs.foldl deepen (depth - 1) + _ = _
      omega
    · rw [if_neg hclose] at h
      have ih' := ih h
      by_cases hopen : c = '('
      · subst hopen
        have hdepth : deepen depth '(' = depth + 1 := rfl
        rw [List.foldl_cons, List.count_cons_self, count_close_open]
        omega
      · simpa [deepen, hopen, hclose] using ih'

/-- Blanks do not matter to the parentheses. -/
theorem balancedFrom_filter (depth : Nat) (cs : List Char) :
    balancedFrom depth (cs.filter fun c => !Text.isBlank c) = balancedFrom depth cs := by
  induction cs generalizing depth with
  | nil => rfl
  | cons c cs ih =>
    cases hc : Text.isBlank c with
    | true =>
      have hopen : c ≠ '(' := by
        rintro rfl
        exact absurd hc (by decide)
      have hclose : c ≠ ')' := by
        rintro rfl
        exact absurd hc (by decide)
      rw [List.filter_cons_of_neg (by simp [hc]), ih, balancedFrom, if_neg hclose, deepen,
        if_neg hopen, if_neg hclose]
    | false =>
      rw [List.filter_cons_of_pos (by simp [hc]), balancedFrom, balancedFrom, ih, ih]

theorem balanced_flatten_words (cs : List Char) :
    balanced (Text.words cs).flatten = balanced cs := by
  rw [Text.flatten_words]
  exact balancedFrom_filter 0 cs

theorem inside?_eq_some_iff {cs inner : List Char} :
    inside? cs = some inner ↔ cs = '(' :: inner ++ [')'] ∧ balanced inner = true := by
  constructor
  · intro h
    unfold inside? at h
    split at h
    · rename_i rest
      split at h
      · rename_i hboth
        obtain ⟨hlast, hbalanced⟩ := hboth
        obtain ⟨before, rfl⟩ := List.getLast?_eq_some_iff.mp hlast
        rw [List.dropLast_concat] at h hbalanced
        obtain rfl := Option.some.inj h
        exact ⟨rfl, hbalanced⟩
      · simp at h
    · simp at h
  · rintro ⟨rfl, hbalanced⟩
    simp [inside?, hbalanced]

theorem inside?_eq_none_iff {cs : List Char} :
    inside? cs = none ↔ ∀ inner, cs = '(' :: inner ++ [')'] → ¬ Balanced inner := by
  rw [Option.eq_none_iff_forall_ne_some]
  refine forall_congr' fun inner => ?_
  rw [ne_eq, inside?_eq_some_iff, balanced_iff, not_and]

/-! ## Words that the cut takes as a whole -/

/-- No word is a connective at depth zero. -/
def Uncut (depth : Nat) (ws : List (List Char)) : Prop :=
  ∀ before w after, ws = before ++ w :: after → isConnective w = true →
    before.flatten.foldl deepen depth ≠ 0

theorem isConnective_iff {w : List Char} :
    isConnective w = true ↔ w = "and".toList ∨ w = "or".toList := by
  rw [isConnective, Bool.or_eq_true, decide_eq_true_iff, decide_eq_true_iff]

theorem isWord_connective {w : List Char} (h : isConnective w = true) : Text.IsWord w := by
  rcases isConnective_iff.mp h with rfl | rfl <;> decide

theorem close_not_mem_connective {w : List Char} (h : isConnective w = true) : ')' ∉ w := by
  rcases isConnective_iff.mp h with rfl | rfl <;> decide

theorem deepen_connective {w : List Char} (h : isConnective w = true) (depth : Nat) :
    w.foldl deepen depth = depth := by
  rcases isConnective_iff.mp h with rfl | rfl <;> rfl

theorem cut_uncut {depth : Nat} {ws : List (List Char)} (h : Uncut depth ws)
    (more : List (List Char)) :
    cut depth (ws ++ more)
      = ws.foldr Text.pushFirst (cut (ws.flatten.foldl deepen depth) more) := by
  induction ws generalizing depth with
  | nil => rfl
  | cons w ws ih =>
    have hw : ¬ (w.foldl deepen depth = 0 ∧ isConnective w = true) := by
      rintro ⟨hzero, hconnective⟩
      rw [deepen_connective hconnective] at hzero
      exact h [] w ws rfl hconnective hzero
    have hws : Uncut (w.foldl deepen depth) ws := by
      intro before v after hsplit hconnective
      have := h (w :: before) v after (by rw [hsplit]; rfl) hconnective
      rwa [List.flatten_cons, List.foldl_append] at this
    rw [List.cons_append, cut]
    simp only [if_neg hw]
    rw [ih hws, List.foldr_cons, List.flatten_cons, List.foldl_append]

theorem foldr_pushFirst_nil {ws : List (List Char)} (h : ws ≠ []) :
    ws.foldr Text.pushFirst [] = [ws] := by
  induction ws with
  | nil => exact absurd rfl h
  | cons w ws ih =>
    by_cases hws : ws = []
    · subst hws
      rfl
    · rw [List.foldr_cons, ih hws]
      rfl

theorem foldr_pushFirst_cons (ws part : List (List Char)) (parts : List (List (List Char))) :
    ws.foldr Text.pushFirst (part :: parts) = (ws ++ part) :: parts := by
  induction ws with
  | nil => rfl
  | cons w ws ih =>
    rw [List.foldr_cons, ih]
    rfl

theorem foldl_deepen_balanced {cs : List Char} (h : balanced cs = true) :
    cs.foldl deepen 0 = 0 := by
  have hdepth : cs.foldl deepen 0 + cs.count ')' = 0 + cs.count '(' :=
    foldl_deepen [] (by rwa [List.append_nil])
  have hcount := (balanced_iff.mp h).2
  omega

/-- A text that the cut takes as a whole. -/
structure Whole (cs : List Char) : Prop where
  spaced : Text.Spaced cs
  balanced : balanced cs = true
  uncut : Uncut 0 (Text.words cs)

namespace Whole
variable {cs : List Char}

theorem depth_words (h : Whole cs) : (Text.words cs).flatten.foldl deepen 0 = 0 :=
  foldl_deepen_balanced (by rw [balanced_flatten_words]; exact h.balanced)

theorem cut_words (h : Whole cs) : cut 0 (Text.words cs) = [Text.words cs] := by
  have hcut := cut_uncut h.uncut []
  rw [List.append_nil] at hcut
  rw [hcut]
  exact foldr_pushFirst_nil h.spaced.words_ne_nil

theorem cut_words_append (h : Whole cs) {w : List Char} (hw : isConnective w = true)
    (more : List (List Char)) :
    cut 0 (Text.words cs ++ w :: more) = (Text.words cs ++ [w]) :: cut 0 more := by
  have hcut : cut 0 (w :: more) = [w] :: cut 0 more := by
    rw [cut]
    exact if_pos ⟨deepen_connective hw 0, hw⟩
  rw [cut_uncut h.uncut, h.depth_words, hcut, foldr_pushFirst_cons]

/-- The last word is no connective: it would stand at depth zero. -/
theorem splitConnective_words (h : Whole cs) :
    splitConnective (Text.words cs) = (Text.words cs, none) := by
  have hdepth := h.depth_words
  have huncut := h.uncut
  unfold splitConnective
  split
  · rename_i w hlast
    obtain ⟨before, hbefore⟩ := List.getLast?_eq_some_iff.mp hlast
    rw [if_neg]
    rintro ⟨_, hconnective⟩
    apply huncut before w [] hbefore hconnective
    rw [hbefore, List.flatten_append, List.foldl_append] at hdepth
    have hw : [w].flatten = w := List.append_nil w
    rwa [hw, deepen_connective hconnective] at hdepth
  · rfl

theorem splitConnective_closed (h : Whole cs) {w : List Char} (hw : isConnective w = true) :
    splitConnective (Text.words cs ++ [w]) = (Text.words cs, some w) := by
  unfold splitConnective
  rw [List.getLast?_concat, List.dropLast_concat]
  exact if_pos ⟨h.spaced.words_ne_nil, hw⟩

/-- A text in parentheses: inside, the depth never falls to zero. -/
theorem group (hspaced : Text.Spaced cs) (hbalanced : Condition.balanced cs = true) :
    Whole ('(' :: cs ++ [')']) := by
  refine ⟨(hspaced.cons Text.isBlank_open).snoc Text.isBlank_close, balanced_group hbalanced, ?_⟩
  intro before w after hsplit hconnective
  have hinner : Condition.balanced (cs.filter fun c => !Text.isBlank c) = true := by
    rw [Condition.balanced, balancedFrom_filter]
    exact hbalanced
  have hflat : '(' :: (cs.filter fun c => !Text.isBlank c) ++ [')']
      = before.flatten ++ (w ++ after.flatten) := by
    have hwords := congrArg List.flatten hsplit
    rw [Text.flatten_words, List.flatten_append, List.flatten_cons] at hwords
    rw [← hwords]
    simp [Text.isBlank_open, Text.isBlank_close]
  generalize (cs.filter fun c => !Text.isBlank c) = inner at hinner hflat
  have hne : w ≠ [] := by
    rintro rfl
    exact absurd hconnective (by decide)
  have hhead : w.head? ≠ some '(' := by
    rcases isConnective_iff.mp hconnective with rfl | rfl <;> decide
  generalize before.flatten = front at hflat ⊢
  cases front with
  | nil =>
    obtain ⟨c, w, rfl⟩ := List.exists_cons_of_ne_nil hne
    exact absurd (congrArg some (List.cons.inj hflat).1.symm) hhead
  | cons c front =>
    obtain ⟨rfl, hrest⟩ := List.cons.inj hflat
    have hrest : inner ++ [')'] = front ++ (w ++ after.flatten) := hrest
    have hfront : front <+: inner := by
      refine List.prefix_of_prefix_length_le ⟨_, hrest.symm⟩ (List.prefix_append _ _) ?_
      have hlength := congrArg List.length hrest
      have hpos := List.length_pos_iff.mpr hne
      simp only [List.length_append, List.length_singleton] at hlength
      omega
    obtain ⟨rest, rfl⟩ := hfront
    have hcounts : front.foldl deepen 0 + front.count ')' = 0 + front.count '(' :=
      foldl_deepen rest hinner
    have hdepth : front.foldl deepen 1 + front.count ')' = 1 + front.count '(' := by
      apply foldl_deepen (rest ++ [')'])
      rw [← List.append_assoc]
      exact balanced_group hinner
    show front.foldl deepen 1 ≠ 0
    omega

end Whole

/-! ## The grammar -/

inductive Connective where
  | and
  | or
deriving DecidableEq, Repr

def Connective.word : Connective → List Char
  | .and => "and".toList
  | .or => "or".toList

theorem Connective.isConnective_word (c : Connective) : isConnective c.word = true := by
  cases c <;> rfl

/-- Every connective among the words has an open parenthesis before it. -/
def Enclosed (ws : List (List Char)) : Prop :=
  ∀ i : Fin ws.length, isConnective ws[i] = true →
    (ws.take i).flatten.count ')' < (ws.take i).flatten.count '('

instance (ws : List (List Char)) : Decidable (Enclosed ws) :=
  Nat.decidableForallFin _

/-- A text that is one clause: words with single spaces between them, balanced, no connective at
depth zero, and not a balanced text in parentheses. -/
structure Atom where
  words : List (List Char)
  ne_nil : words ≠ []
  isWord : ∀ w ∈ words, Text.IsWord w
  balanced : Balanced (Text.unwords words)
  enclosed : Enclosed words
  ungrouped : ∀ inner, Text.unwords words = '(' :: inner ++ [')'] → ¬ Balanced inner

mutual

/-- Terms with connectives between them. -/
inductive Expr where
  | single (t : Term)
  | join (t : Term) (c : Connective) (e : Expr)

/-- An atom, or an expression in parentheses. -/
inductive Term where
  | atom (a : Atom)
  | group (e : Expr)

end

def Atom.text (a : Atom) : List Char := Text.unwords a.words

mutual

/-- terms and connectives joined by single spaces -/
def Expr.text : Expr → List Char
  | .single t => t.text
  | .join t c e => t.text ++ ' ' :: (c.word ++ ' ' :: e.text)

def Term.text : Term → List Char
  | .atom a => a.text
  | .group e => '(' :: e.text ++ [')']

end

/-! ## What stands in an expression, from left to right -/

inductive Token where
  | opening
  | closing
  | atom (a : Atom)
  | joint (c : Connective)

mutual

def Expr.tokens : Expr → List Token
  | .single t => t.tokens
  | .join t c e => t.tokens ++ .joint c :: e.tokens

def Term.tokens : Term → List Token
  | .atom a => [.atom a]
  | .group e => .opening :: (e.tokens ++ [.closing])

end

/-- the connective that comes next, once closing parentheses are skipped -/
def nextConnective? : List Token → Option Connective
  | .closing :: rest => nextConnective? rest
  | .joint c :: _ => some c
  | _ => none

def followed (text : List Char) : Option Connective → List Char
  | none => text
  | some c => text ++ ' ' :: c.word

/-- The atoms in reading order, each followed by a space and the connective that comes next. -/
def closedAtoms : List Token → List (List Char)
  | [] => []
  | .atom a :: rest => followed a.text (nextConnective? rest) :: closedAtoms rest
  | _ :: rest => closedAtoms rest

/-! ## Closing a list of clauses -/

theorem close_eq_followed (c? : Option Connective) (text : List Char) :
    close (c?.map Connective.word) [text] = [followed text c?] := by
  cases c? <;> rfl

theorem close_some_concat (w : List Char) (cs : List (List Char)) (c : List Char) :
    close (some w) (cs ++ [c]) = cs ++ [c ++ ' ' :: w] := by
  unfold close
  rw [List.getLast?_concat, List.dropLast_concat]

theorem close_append (w? : Option (List Char)) (cs : List (List Char)) {ds : List (List Char)}
    (h : ds ≠ []) : close w? (cs ++ ds) = cs ++ close w? ds := by
  obtain ⟨before, last, rfl⟩ : ∃ before last, ds = before ++ [last] :=
    ⟨_, _, (List.dropLast_concat_getLast h).symm⟩
  cases w? with
  | none => rfl
  | some w =>
    rw [close_some_concat, ← List.append_assoc, close_some_concat, List.append_assoc]

mutual

theorem Expr.closedAtoms_ne_nil : ∀ e : Expr, ∀ rest, closedAtoms (e.tokens ++ rest) ≠ []
  | .single t, rest => t.closedAtoms_ne_nil rest
  | .join t c e, rest => by
    show closedAtoms ((t.tokens ++ .joint c :: e.tokens) ++ rest) ≠ []
    rw [List.append_assoc]
    exact t.closedAtoms_ne_nil _

theorem Term.closedAtoms_ne_nil : ∀ t : Term, ∀ rest, closedAtoms (t.tokens ++ rest) ≠ []
  | .atom a, rest => List.cons_ne_nil _ _
  | .group e, rest => by
    show closedAtoms ((e.tokens ++ [.closing]) ++ rest) ≠ []
    rw [List.append_assoc]
    exact e.closedAtoms_ne_nil _

end

-- What comes next behind an expression closes its last atom, as deep in groups as that may be.
mutual

theorem Expr.closedAtoms_append : ∀ e : Expr, ∀ rest, closedAtoms (e.tokens ++ rest)
    = close ((nextConnective? rest).map Connective.word) (closedAtoms e.tokens) ++ closedAtoms rest
  | .single t, rest => t.closedAtoms_append rest
  | .join t c e, rest => by
    have hjoin : closedAtoms (t.tokens ++ .joint c :: e.tokens)
        = close (some c.word) (closedAtoms t.tokens) ++ closedAtoms e.tokens :=
      t.closedAtoms_append (.joint c :: e.tokens)
    have hne : closedAtoms e.tokens ≠ [] := by
      have := e.closedAtoms_ne_nil []
      rwa [List.append_nil] at this
    show closedAtoms ((t.tokens ++ .joint c :: e.tokens) ++ rest)
      = close _ (closedAtoms (t.tokens ++ .joint c :: e.tokens)) ++ closedAtoms rest
    rw [hjoin, close_append _ _ hne, List.append_assoc, List.append_assoc, ← e.closedAtoms_append]
    exact t.closedAtoms_append _

theorem Term.closedAtoms_append : ∀ t : Term, ∀ rest, closedAtoms (t.tokens ++ rest)
    = close ((nextConnective? rest).map Connective.word) (closedAtoms t.tokens) ++ closedAtoms rest
  | .atom a, rest => by
    show _ = close _ [a.text] ++ _
    rw [close_eq_followed]
    rfl
  | .group e, rest => by
    have hgroup : closedAtoms (e.tokens ++ [.closing]) = closedAtoms e.tokens :=
      (e.closedAtoms_append [.closing]).trans (List.append_nil _)
    show closedAtoms ((e.tokens ++ [.closing]) ++ rest)
      = close _ (closedAtoms (e.tokens ++ [.closing])) ++ closedAtoms rest
    rw [hgroup, List.append_assoc]
    exact e.closedAtoms_append (.closing :: rest)

end

/-! ## Terms are taken as a whole -/

theorem Atom.words_text (a : Atom) : Text.words a.text = a.words :=
  Text.words_unwords a.isWord

theorem Atom.whole (a : Atom) : Whole a.text := by
  have hbalanced : Condition.balanced a.text = true := balanced_iff.mpr a.balanced
  refine ⟨⟨a.words, a.ne_nil, a.isWord, rfl⟩, hbalanced, ?_⟩
  rw [a.words_text]
  intro before w after hsplit hconnective hzero
  have hlt : before.length < a.words.length := by
    rw [hsplit, List.length_append, List.length_cons]
    omega
  have henclosed := a.enclosed ⟨before.length, hlt⟩
  have hcounts : before.flatten.foldl deepen 0 + before.flatten.count ')'
      = 0 + before.flatten.count '(' := by
    apply foldl_deepen (w :: after).flatten
    rw [← List.flatten_append, ← hsplit, ← a.words_text]
    exact (balanced_flatten_words a.text).trans hbalanced
  simp only [hsplit, Fin.getElem_fin, List.getElem_append_right (Nat.le_refl _), Nat.sub_self,
    List.getElem_cons_zero, List.take_left] at henclosed
  have := henclosed hconnective
  omega

theorem Connective.spaced_word (c : Connective) : Text.Spaced c.word := by
  refine ⟨[c.word], by simp, fun w hw => ?_, rfl⟩
  rw [List.mem_singleton.mp hw]
  exact isWord_connective c.isConnective_word

theorem Connective.balanced_between (c : Connective) :
    balanced (' ' :: (c.word ++ [' '])) = true := by
  cases c <;> decide

mutual

theorem Expr.spaced_balanced : ∀ e : Expr, Text.Spaced e.text ∧ balanced e.text = true
  | .single t => ⟨t.whole.spaced, t.whole.balanced⟩
  | .join t c e => by
    obtain ⟨hspaced, hbalanced⟩ := e.spaced_balanced
    refine ⟨t.whole.spaced.append (c.spaced_word.append hspaced), ?_⟩
    have htext : t.text ++ ' ' :: (c.word ++ ' ' :: e.text)
        = t.text ++ (' ' :: (c.word ++ [' ']) ++ e.text) := by simp
    show balanced (t.text ++ ' ' :: (c.word ++ ' ' :: e.text)) = true
    rw [htext]
    exact balanced_append t.whole.balanced (balanced_append c.balanced_between hbalanced)

theorem Term.whole : ∀ t : Term, Whole t.text
  | .atom a => a.whole
  | .group e => .group e.spaced_balanced.1 e.spaced_balanced.2

end

/-! ## The clauses of an expression -/

/-- what becomes of one part of the cut -/
def partClauses (ws : List (List Char)) : List (List Char) :=
  match inside? (Text.unwords (splitConnective ws).1) with
  | some inner => close (splitConnective ws).2 (clausesOf inner)
  | none => [Text.unwords ws]

theorem clausesOf_eq_partClauses (cs : List Char) :
    clausesOf cs = (cut 0 (Text.words cs)).flatMap partClauses :=
  clausesOf_eq cs

theorem Whole.partClauses_closed {cs : List Char} (h : Whole cs) (c? : Option Connective) :
    partClauses (Text.words cs ++ (c?.map Connective.word).toList) = match inside? cs with
      | some inner => close (c?.map Connective.word) (clausesOf inner)
      | none => [followed cs c?] := by
  unfold partClauses
  cases c? with
  | none =>
    have hnil : Text.words cs ++ ((none : Option Connective).map Connective.word).toList
        = Text.words cs := List.append_nil _
    rw [hnil, h.splitConnective_words, h.spaced.unwords_words]
    rfl
  | some c =>
    have hsingle : Text.words cs ++ ((some c).map Connective.word).toList
        = Text.words cs ++ [c.word] := rfl
    rw [hsingle, h.splitConnective_closed c.isConnective_word,
      Text.unwords_concat h.spaced.words_ne_nil, h.spaced.unwords_words]
    rfl

theorem Expr.words_join (t : Term) (c : Connective) (e : Expr) :
    Text.words (Expr.join t c e).text = Text.words t.text ++ c.word :: Text.words e.text := by
  have hword : Text.words c.word = [c.word] := by cases c <;> rfl
  show Text.words (t.text ++ ' ' :: (c.word ++ ' ' :: e.text)) = _
  rw [Text.words_append Text.isBlank_space, Text.words_append Text.isBlank_space, hword]
  rfl

mutual

theorem Expr.clausesOf_text : ∀ e : Expr, clausesOf e.text = closedAtoms e.tokens
  | .single t => by
    have hpart : partClauses (Text.words t.text ++ []) = closedAtoms t.tokens :=
      t.partClauses_text none
    rw [List.append_nil] at hpart
    show clausesOf t.text = closedAtoms t.tokens
    rw [clausesOf_eq_partClauses, t.whole.cut_words, List.flatMap_singleton, hpart]
  | .join t c e => by
    have hpart := t.partClauses_text (some c)
    have htokens : closedAtoms (Expr.join t c e).tokens
        = close (some c.word) (closedAtoms t.tokens) ++ closedAtoms e.tokens :=
      t.closedAtoms_append (.joint c :: e.tokens)
    rw [clausesOf_eq_partClauses, Expr.words_join, t.whole.cut_words_append c.isConnective_word,
      List.flatMap_cons, ← clausesOf_eq_partClauses, e.clausesOf_text, htokens]
    exact congrArg (· ++ closedAtoms e.tokens) hpart

/-- A term, perhaps with a connective behind it. -/
theorem Term.partClauses_text : ∀ (t : Term) (c? : Option Connective),
    partClauses (Text.words t.text ++ (c?.map Connective.word).toList)
      = close (c?.map Connective.word) (closedAtoms t.tokens)
  | .atom a, c? => by
    have hinside : inside? a.text = none := inside?_eq_none_iff.mpr a.ungrouped
    rw [(Term.atom a).whole.partClauses_closed c?]
    show (match inside? a.text with | some _ => _ | none => [followed a.text c?]) = close _ [a.text]
    rw [hinside, close_eq_followed]
  | .group e, c? => by
    have hinside : inside? ('(' :: e.text ++ [')']) = some e.text :=
      inside?_eq_some_iff.mpr ⟨rfl, e.spaced_balanced.2⟩
    have htokens : closedAtoms (Term.group e).tokens = closedAtoms e.tokens :=
      (e.closedAtoms_append [.closing]).trans (List.append_nil _)
    rw [(Term.group e).whole.partClauses_closed c?, htokens, ← e.clausesOf_text]
    show (match inside? ('(' :: e.text ++ [')']) with | some inner => _ | none => _) = _
    rw [hinside]

end

/-- **Clauses follow the grammar.**  The clauses of a written expression, of any length and nesting,
are its atoms in reading order, each followed by a space and the connective that comes next after it
once closing parentheses are skipped; the last atom has none. -/
theorem clauses_expr (e : Expr) :
    clauses (String.ofList e.text) = (closedAtoms e.tokens).map String.ofList := by
  rw [clauses, String.toList_ofList, e.clausesOf_text]

/-- The atom `destination in (10.0.0.0/8 and more)`, with a connective inside its set. -/
def Atom.destinationSet : Atom where
  words := ["destination".toList, "in".toList, "(10.0.0.0/8".toList, "and".toList, "more)".toList]
  ne_nil := by decide
  isWord := by decide +kernel
  balanced := by decide +kernel
  enclosed := by decide +kernel
  ungrouped := inside?_eq_none_iff.mp (by decide +kernel)

/-- The atom `(a) x (b)`, which starts and ends like a group. -/
def Atom.sideBySide : Atom where
  words := ["(a)".toList, "x".toList, "(b)".toList]
  ne_nil := by decide
  isWord := by decide +kernel
  balanced := by decide +kernel
  enclosed := by decide +kernel
  ungrouped := inside?_eq_none_iff.mp (by decide +kernel)

/-- A group in a group, whose last atom takes the connective behind both. -/
theorem clauses_nestedGroup :
    clauses "((a) x (b) or (destination in (10.0.0.0/8 and more))) and (a) x (b)"
      = ["(a) x (b) or", "destination in (10.0.0.0/8 and more) and", "(a) x (b)"] := by
  have h := clauses_expr (.join
    (.group (.join (.atom .sideBySide) .or (.single (.group (.single (.atom .destinationSet))))))
    .and (.single (.atom .sideBySide)))
  exact h

end Condition

end RoutePolicy
