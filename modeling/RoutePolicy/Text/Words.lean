import RoutePolicy.Text.Blank

/-!
# Words

The words of a text are its longest runs of characters that are not blank, in order.  `unwords`
joins words by single spaces; `filter_unwords` and `flatten_words` say that neither direction
touches the characters of the words.
-/

namespace RoutePolicy.Text

/-- Puts an element in front of the first list. -/
def pushFirst {α : Type} (a : α) : List (List α) → List (List α)
  | [] => [[a]]
  | l :: ls => (a :: l) :: ls

/-- The words of a text. -/
def words : List Char → List (List Char)
  | [] => []
  | c :: cs =>
    if isBlank c then words cs
    else if cs.head?.all isBlank then [c] :: words cs
    else pushFirst c (words cs)

/-- The first word of a text, empty when there is none. -/
def firstWord (cs : List Char) : List Char :=
  (words cs).headD []

/-- Words joined by single spaces. -/
def unwords : List (List Char) → List Char
  | [] => []
  | [w] => w
  | w :: ws => w ++ ' ' :: unwords ws

@[simp] theorem words_nil : words [] = [] := rfl

@[simp] theorem unwords_nil : unwords [] = [] := rfl

@[simp] theorem flatten_pushFirst {α : Type} (a : α) (ls : List (List α)) :
    (pushFirst a ls).flatten = a :: ls.flatten := by
  cases ls <;> simp [pushFirst]

/-- The words hold the characters that are not blank, in order. -/
theorem flatten_words (cs : List Char) :
    (words cs).flatten = cs.filter fun c => !isBlank c := by
  induction cs with
  | nil => rfl
  | cons c cs ih =>
    cases h : isBlank c with
    | true => simp [words, h, ih]
    | false => by_cases hb : cs.head?.all isBlank = true <;> simp [words, h, hb, ih]

/-- Joining adds blanks only. -/
theorem filter_unwords (ws : List (List Char)) :
    ((unwords ws).filter fun c => !isBlank c) = ws.flatten.filter fun c => !isBlank c := by
  fun_induction unwords ws with
  | case1 => rfl
  | case2 w => simp
  | case3 w ws _ ih => simp [ih, isBlank_space]

end RoutePolicy.Text
