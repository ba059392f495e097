import RoutePolicy.Value.Basic

/-!
# Printing values

Two layouts of the same text form: `compact` without any blank, and `pretty` with one entry or item
a line, two spaces deeper at each level.  In a text, the quote, the backslash and the control
characters up to U+001F are escaped; every other character stands for itself.
-/

namespace RoutePolicy

/-! ## Texts -/

/-- A hexadecimal digit, in lower case. -/
def hexDigit (n : Nat) : Char :=
  Nat.digitChar (n % 16)

/-- The characters that stand for one character inside quotes. -/
def escaped (c : Char) : List Char :=
  if c = '"' then ['\\', '"']
  else if c = '\\' then ['\\', '\\']
  else if c = '\x08' then ['\\', 'b']
  else if c = '\t' then ['\\', 't']
  else if c = '\n' then ['\\', 'n']
  else if c = '\x0c' then ['\\', 'f']
  else if c = '\r' then ['\\', 'r']
  else if c.toNat < 0x20 then ['\\', 'u', '0', '0', hexDigit (c.toNat / 16), hexDigit c.toNat]
  else [c]

/-- A text in quotes. -/
def quoted (s : String) : String :=
  String.ofList ('"' :: s.toList.flatMap escaped ++ ['"'])

example : quoted "a\"\\\n\x01é" = "\"a\\\"\\\\\\n\\u0001é\"" := by decide +kernel

namespace Value

/-! ## Layouts -/

mutual
/-- The text of a value without blanks. -/
def compact : Value → String
  | .null => "null"
  | .bool true => "true"
  | .bool false => "false"
  | .num n => n.text
  | .str s => quoted s
  | .list [] => "[]"
  | .list (v :: vs) => "[" ++ v.compact ++ compactItems vs ++ "]"
  | .dict [] => "\x7b\x7d"
  | .dict ((k, v) :: es) => "\x7b" ++ quoted k ++ ":" ++ v.compact ++ compactEntries es ++ "\x7d"
/-- The items after the first, each behind a comma. -/
def compactItems : List Value → String
  | [] => ""
  | v :: vs => "," ++ v.compact ++ compactItems vs
/-- The entries after the first, each behind a comma. -/
def compactEntries : List (String × Value) → String
  | [] => ""
  | (k, v) :: es => "," ++ quoted k ++ ":" ++ v.compact ++ compactEntries es
end

/-- The line feed and blanks that open a line at a given depth. -/
def lineStart (depth : Nat) : String :=
  String.ofList ('\n' :: List.replicate (2 * depth) ' ')

mutual
/-- The text of a value over several lines; `depth` is the level of the line it starts on. -/
def prettyAt (depth : Nat) : Value → String
  | .null => "null"
  | .bool true => "true"
  | .bool false => "false"
  | .num n => n.text
  | .str s => quoted s
  | .list [] => "[]"
  | .list (v :: vs) =>
    "[" ++ lineStart (depth + 1) ++ prettyAt (depth + 1) v ++ prettyItems (depth + 1) vs
      ++ lineStart depth ++ "]"
  | .dict [] => "\x7b\x7d"
  | .dict ((k, v) :: es) =>
    "\x7b" ++ lineStart (depth + 1) ++ quoted k ++ ": " ++ prettyAt (depth + 1) v
      ++ prettyEntries (depth + 1) es ++ lineStart depth ++ "\x7d"
/-- The items after the first, each on a line of its own. -/
def prettyItems (depth : Nat) : List Value → String
  | [] => ""
  | v :: vs => "," ++ lineStart depth ++ prettyAt depth v ++ prettyItems depth vs
/-- The entries after the first, each on a line of its own. -/
def prettyEntries (depth : Nat) : List (String × Value) → String
  | [] => ""
  | (k, v) :: es =>
    "," ++ lineStart depth ++ quoted k ++ ": " ++ prettyAt depth v ++ prettyEntries depth es
end

/-- The text of a value over several lines. -/
def pretty (v : Value) : String :=
  v.prettyAt 0

end Value

end RoutePolicy
