/-!
# Blank characters

A character is blank when it has the Unicode property White_Space.  Every cut of a text (trimming,
words, the single blank between the words of a statement) goes by this one class, so a no-break
space or an ideographic space separates words exactly as a space does.
-/

namespace RoutePolicy.Text

/-- The code points with the property White_Space, as closed ranges in ascending order. -/
def blankRanges : List (Nat × Nat) :=
  [(0x09, 0x0D), (0x20, 0x20), (0x85, 0x85), (0xA0, 0xA0), (0x1680, 0x1680), (0x2000, 0x200A),
    (0x2028, 0x2029), (0x202F, 0x202F), (0x205F, 0x205F), (0x3000, 0x3000)]

/-- Whether a character separates words. -/
def isBlank (c : Char) : Bool :=
  blankRanges.any fun r => r.1 ≤ c.toNat && c.toNat ≤ r.2

theorem isBlank_space : isBlank ' ' = true := by decide

theorem isBlank_return : isBlank '\r' = true := by decide

theorem isBlank_open : isBlank '(' = false := by decide

theorem isBlank_close : isBlank ')' = false := by decide

/-- The table is in order and its ranges do not touch. -/
example : blankRanges.Pairwise fun a b => a.2 + 1 < b.1 := by decide

/-- The table holds 25 characters. -/
example : (blankRanges.map fun r => r.2 + 1 - r.1).sum = 25 := by decide

end RoutePolicy.Text
