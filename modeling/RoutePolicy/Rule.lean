import RoutePolicy.LineClass
import RoutePolicy.Value.Basic

/-!
# Rules

A rule recognises one kind of statement and says where its fields land in a document: a path of
keys, and under it a single value, a mapping of fields, or one more item of a list.

`Match.fragment` is what a recognised line contributes.  Fields that the line leaves out are left
out of it, so a later line never erases what an earlier one wrote.
-/

namespace RoutePolicy

/-! ## Fields -/

/-- How a field gets its value. -/
inductive Slot where
  /-- the text of the operand; absent when the operand is -/
  | text
  /-- whether the operand is there -/
  | flag
  /-- true on every match -/
  | on
deriving DecidableEq, Repr

/-- A field of a rule: the key, which is also the field its operand writes, and its slot. -/
structure Field where
  key : String
  slot : Slot
deriving DecidableEq, Repr

/-- What a rule leaves at its path. -/
inductive Shape where
  /-- one value, read from the field named like the last key of the path -/
  | value (slot : Slot)
  /-- a mapping of fields -/
  | map (fields : List Field)
  /-- a mapping of fields, added to a list -/
  | item (fields : List Field)
deriving DecidableEq, Repr

/-- What a line gave for a field, if anything. -/
inductive FieldValue where
  | text (s : String)
  | flag (b : Bool)
  | absent
deriving DecidableEq, Repr

namespace FieldValue

/-- The value as it stands in a document. -/
def value? : FieldValue → Option Value
  | .text s => some (.str s)
  | .flag b => some (.bool b)
  | .absent => none

/-- The text, if there is one. -/
def text? : FieldValue → Option String
  | .text s => some s
  | _ => none

end FieldValue

/-- The value of a field, given what the line's operands wrote. -/
def Field.read (field : Field) (captures : Captures) : FieldValue :=
  match field.slot with
  | .text =>
    match Entries.get? field.key captures with
    | some s => .text s
    | none => .absent
  | .flag => .flag (Entries.get? field.key captures).isSome
  | .on => .flag true

/-! ## Rules and matches -/

/-- A kind of statement. -/
structure Rule where
  /-- the keys above the last one of the path -/
  parents : List String
  /-- the last key of the path -/
  leaf : String
  /-- the class of the lines it matches -/
  lineClass : LineClass
  /-- how such a line is written -/
  pattern : Pattern
  /-- what it leaves at its path -/
  shape : Shape
deriving DecidableEq, Repr

namespace Rule

/-- The path with dots between the keys. -/
def name (rule : Rule) : String :=
  rule.parents.foldr (fun key below => key ++ "." ++ below) rule.leaf

/-- The fields of a rule. -/
def fields (rule : Rule) : List Field :=
  match rule.shape with
  | .value slot => [{ key := rule.leaf, slot }]
  | .map fields => fields
  | .item fields => fields

end Rule

/-- A recognised line: the rule that matched, and a value for each of its fields, in the rule's
order. -/
structure Match where
  rule : Rule
  fields : List (String × FieldValue)
deriving DecidableEq, Repr

/-- A trimmed line read by one rule. -/
def Rule.match? (rule : Rule) (line : List Char) : Option Match :=
  (rule.pattern.captures line).map fun captures =>
    { rule, fields := rule.fields.map fun field => (field.key, field.read captures) }

namespace Match

/-- The text of a field. -/
def text? (m : Match) (key : String) : Option String :=
  (Entries.get? key m.fields).bind FieldValue.text?

/-- The fields that the line gave, as entries of a mapping. -/
def entries (m : Match) : List (String × Value) :=
  m.fields.filterMap fun field => field.2.value?.map fun v => (field.1, v)

/-- What stands at the end of the path, if anything does. -/
def leafValue? (m : Match) : Option Value :=
  match m.rule.shape with
  | .value _ => (m.fields.head?).bind fun field => field.2.value?
  | .map _ => some (.dict m.entries)
  | .item _ => some (.list [.dict m.entries])

/-- What the line contributes to its block. -/
def fragment (m : Match) : List (String × Value) :=
  match m.leafValue? with
  | none => []
  | some v => m.rule.parents.foldr (fun key below => [(key, .dict below)]) [(m.rule.leaf, v)]

end Match

end RoutePolicy
