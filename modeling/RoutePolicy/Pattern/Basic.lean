import RoutePolicy.Pattern.Operand
import RoutePolicy.Text.Trim

/-!
# Statement patterns

A pattern says how a trimmed line has to be written to be a statement of one kind, and
`Pattern.captures` reads the fields off a line that is.

* `phrase`    keywords and operands with exactly one blank character between them;
* `call`      a keyword, a name, and perhaps an argument text directly behind it or after blanks;
* `header`    a keyword, a name, and perhaps a parameter list directly behind it;
* `branch`    a keyword and a condition, which a closing `then` does not belong to;
* `opening`   any line that starts with the given characters.
-/

namespace RoutePolicy

/-- How a statement is written. -/
inductive Pattern where
  /-- keywords, each with its spellings, then operands -/
  | phrase (head : List (List String)) (operands : List Operand)
  /-- a keyword, one blank, a name, and what else stands on the line -/
  | call (keyword nameField argumentField : String)
  /-- a keyword, blanks, a name, and perhaps a parameter list -/
  | header (keyword nameField : String)
  /-- a keyword, blanks, and a condition -/
  | branch (keyword conditionField : String)
  /-- the first characters of the line -/
  | opening (keyword : String)
deriving DecidableEq, Repr

namespace Pattern

/-! ## Parts of a line -/

/-- What follows a fixed text at the start of a line. -/
def afterText : List Char → List Char → Option (List Char)
  | [], cs => some cs
  | _ :: _, [] => none
  | k :: ks, c :: cs => if k = c then afterText ks cs else none

/-- What follows keywords at the front of a text, each behind exactly one blank character. -/
def readHead : List (List String) → List Char → Option (List Char)
  | [], cs => some cs
  | _ :: _, [] => none
  | spellings :: more, c :: cs =>
    if Text.isBlank c then
      match (Form.oneOf spellings).read cs with
      | some (_, after) => readHead more after
      | none => none
    else none

/-- Whether a character may stand in the name of a policy. -/
def isNameChar (c : Char) : Bool :=
  Form.isSolid c && c ≠ '('

/-- Whether a text is a parameter list: it starts with an opening parenthesis and ends with a
closing one, on one line. -/
def isParameters (cs : List Char) : Bool :=
  match cs with
  | '(' :: rest => rest.getLast? = some ')' && '\n' ∉ rest
  | _ => false

/-- A condition without a final `then`.  The word goes, with the blanks before it, when a blank
stands before it; a condition that is the single word `then` stays. -/
def dropThen (cs : List Char) : List Char :=
  match afterText "then".toList.reverse cs.reverse with
  | some (c :: before) => if Text.isBlank c then Text.trimEnd before.reverse else cs
  | _ => cs

/-! ## Reading a line -/

/-- The fields of a `call` line, after its keyword. -/
def readCall (nameField argumentField : String) : List Char → Option Captures
  | [] => none
  | c :: cs =>
    let name := cs.takeWhile isNameChar
    let argument := Text.trimStart (cs.dropWhile isNameChar)
    if Text.isBlank c = false ∨ name = [] then none
    else if argument = [] then some [(nameField, String.ofList name)]
    else if '\n' ∈ argument then none
    else some [(nameField, String.ofList name), (argumentField, String.ofList argument)]

/-- The fields of a `header` line, after its keyword. -/
def readHeader (nameField : String) : List Char → Option Captures
  | [] => none
  | c :: cs =>
    let body := Text.trimStart cs
    let name := body.takeWhile isNameChar
    let after := body.dropWhile isNameChar
    if Text.isBlank c = false ∨ name = [] then none
    else if after = [] ∨ isParameters after = true then some [(nameField, String.ofList name)]
    else none

/-- The fields of a `branch` line, after its keyword. -/
def readBranch (conditionField : String) : List Char → Option Captures
  | [] => none
  | c :: cs =>
    let condition := dropThen (Text.trimStart cs)
    if Text.isBlank c = false ∨ condition = [] ∨ '\n' ∈ condition then none
    else some [(conditionField, String.ofList condition)]

/-- The fields of a trimmed line, if it is written as the pattern says. -/
def captures : Pattern → List Char → Option Captures
  | .phrase head operands, cs => (readHead head (' ' :: cs)).bind (readOperands operands)
  | .call keyword nameField argumentField, cs =>
    (afterText keyword.toList cs).bind (readCall nameField argumentField)
  | .header keyword nameField, cs => (afterText keyword.toList cs).bind (readHeader nameField)
  | .branch keyword conditionField, cs =>
    (afterText keyword.toList cs).bind (readBranch conditionField)
  | .opening keyword, cs => (afterText keyword.toList cs).map fun _ => []

end Pattern

end RoutePolicy
