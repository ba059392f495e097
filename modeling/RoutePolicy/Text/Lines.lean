import RoutePolicy.Text.Blank

/-!
# Lines

A text is cut into lines at each line feed; a carriage return directly before the line feed belongs
to the line end.  A line feed at the very end closes the last line and opens no further one, and a
carriage return at the very end, with no line feed after it, is part of the last line.
-/

namespace RoutePolicy.Text

/-- The lines of a text, without their ends. -/
def lines : List Char → List (List Char)
  | [] => []
  | '\n' :: cs => [] :: lines cs
  | '\r' :: '\n' :: cs => [] :: lines cs
  | c :: cs =>
    match lines cs with
    | [] => [[c]]
    | l :: ls => (c :: l) :: ls

/-- Lines put under each other, with line feeds between them and none at the end. -/
def unlines : List (List Char) → List Char
  | [] => []
  | [l] => l
  | l :: ls => l ++ '\n' :: unlines ls

/-- Whether one text occurs in another. -/
def occursIn (needle : List Char) : List Char → Bool
  | [] => needle.isEmpty
  | c :: cs => needle.isPrefixOf (c :: cs) || occursIn needle cs

@[simp] theorem lines_nil : lines [] = [] := rfl

@[simp] theorem lines_newline (cs : List Char) : lines ('\n' :: cs) = [] :: lines cs := rfl

end RoutePolicy.Text

namespace RoutePolicy

/-- The lines of a text. -/
def Line.ofText (text : String) : List String :=
  (Text.lines text.toList).map String.ofList

/-- Lines put under each other, with line feeds between them and none at the end. -/
def Line.join (lines : List String) : String :=
  String.ofList (Text.unlines (lines.map String.toList))

example : Line.ofText "a\r\n\nb\r" = ["a", "", "b\r"] := by decide

end RoutePolicy
