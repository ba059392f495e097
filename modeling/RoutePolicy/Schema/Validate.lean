import RoutePolicy.Schema.RouteMap
import RoutePolicy.Text.Digit
import RoutePolicy.Text.Trim

/-!
# Validation

`Schema.validate` walks a document and a schema together, in document order, and stops at the first
fault.  On the way it brings leaves into their declared form: the digits of an integer become a
number, `true` and `false` become truth values, and a number where a text is declared becomes its
text.  Null is accepted everywhere and left as it is.
-/

namespace RoutePolicy

/-! ## Paths and faults -/

/-- A step down a document, to an entry of a mapping or an item of a list. -/
inductive Step where
  | key (key : String)
  | index (i : Nat)
deriving DecidableEq, Repr

/-- The text of a step. -/
def Step.text : Step → String
  | .key k => "." ++ k
  | .index i => "[" ++ integerText i ++ "]"

/-- A place in the list of all policies. -/
abbrev Path := List Step

/-- The text of a place. -/
def Path.text (path : Path) : String :=
  path.foldl (fun acc step => acc ++ step.text) "config"

/-- Why a document does not fit its schema: a key that is not declared, a value of another type than
the declared one, or a text that is none of the declared ones. -/
inductive Fault where
  | unsupportedField (path : Path)
  | invalidType (path : Path) (expected : Expectation) (found : Value)
  | invalidChoice (path : Path) (value : String) (choices : List String)
deriving DecidableEq

namespace Fault

/-- The place of a fault. -/
def path : Fault → Path
  | .unsupportedField path => path
  | .invalidType path _ _ => path
  | .invalidChoice path _ _ => path

/-- What a value is called in a message. -/
def describe : Value → String
  | .null => "null"
  | .bool true => "boolean true"
  | .bool false => "boolean false"
  | .num n => "number " ++ n.text
  | .str s => "string '" ++ s ++ "'"
  | .list _ => "a list"
  | .dict _ => "a mapping"

/-- The message for a fault. -/
def message : Fault → String
  | .unsupportedField path => "unsupported field '" ++ path.text ++ "'"
  | .invalidType path expected found =>
    "'" ++ path.text ++ "' must be " ++ expected.words ++ ", found " ++ describe found
  | .invalidChoice path value choices =>
    "'" ++ path.text ++ "' must be one of " ++ ", ".intercalate choices ++ ", found '" ++ value
      ++ "'"

end Fault

/-! ## Leaves -/

/-- The number that ASCII digits stand for. -/
def readDigits? (cs : List Char) : Option Nat :=
  if cs ≠ [] ∧ cs.all Text.isAsciiDigit = true then some (Nat.ofDigitChars 10 cs 0) else none

/-- The integer of 64 bits that a text stands for: digits, perhaps behind a sign, with blanks
around them. -/
def readInteger? (s : String) : Option Int :=
  let n? : Option Int := match Text.trim s.toList with
    | '+' :: cs => (readDigits? cs).map fun n => (n : Int)
    | '-' :: cs => (readDigits? cs).map fun n => -(n : Int)
    | cs => (readDigits? cs).map fun n => (n : Int)
  n?.filter fun n => -9223372036854775808 ≤ n && n ≤ 9223372036854775807

namespace Schema

/-- The declared form of a value that is neither null nor a list nor a mapping. -/
def validateLeaf (schema : Schema) (path : Path) (v : Value) : Except Fault Value :=
  match schema, v with
  | .str, .str s => .ok (.str s)
  | .str, .num n => .ok (.str n.text)
  | .int, .num (.int n) => .ok (.num (.int n))
  | .int, .str s =>
    match readInteger? s with
    | some n => .ok (.num (.int n))
    | none => .error (.invalidType path schema.expectation v)
  | .bool, .bool b => .ok (.bool b)
  | .bool, .str s =>
    if s = "true" then .ok (.bool true)
    else if s = "false" then .ok (.bool false)
    else .error (.invalidType path schema.expectation v)
  | .choice choices, .str s =>
    if s ∈ choices then .ok (.str s) else .error (.invalidChoice path s choices)
  | _, _ => .error (.invalidType path schema.expectation v)

/-! ## Documents -/

/-- The declared fields, if the type is a mapping. -/
def fields? : Schema → Option (List (String × Schema))
  | .dict fields => some fields
  | .scope => some scopeFields
  | _ => none

/-- The declared item, if the type is a list. -/
def item? : Schema → Option Schema
  | .list item => some item
  | _ => none

mutual
/-- The declared form of a value, or its first fault. -/
def validate (schema : Schema) (path : Path) : Value → Except Fault Value
  | .null => .ok .null
  | .list items =>
    match schema.item? with
    | some item => (validateItems item path 0 items).map .list
    | none => .error (.invalidType path schema.expectation (.list items))
  | .dict entries =>
    match schema.fields? with
    | some fields => (validateEntries fields path entries).map .dict
    | none => .error (.invalidType path schema.expectation (.dict entries))
  | .bool b => validateLeaf schema path (.bool b)
  | .num n => validateLeaf schema path (.num n)
  | .str s => validateLeaf schema path (.str s)
/-- The declared forms of the items of a list, from the `i`-th on. -/
def validateItems (item : Schema) (path : Path) (i : Nat) : List Value → Except Fault (List Value)
  | [] => .ok []
  | v :: vs =>
    match validate item (path ++ [.index i]) v with
    | .error fault => .error fault
    | .ok w => (validateItems item path (i + 1) vs).map (w :: ·)
/-- The declared forms of the entries of a mapping. -/
def validateEntries (fields : List (String × Schema)) (path : Path) :
    List (String × Value) → Except Fault (List (String × Value))
  | [] => .ok []
  | (key, v) :: es =>
    match Entries.get? key fields with
    | none => .error (.unsupportedField (path ++ [.key key]))
    | some schema =>
      match validate schema (path ++ [.key key]) v with
      | .error fault => .error fault
      | .ok w => (validateEntries fields path es).map ((key, w) :: ·)
end

end Schema

end RoutePolicy
