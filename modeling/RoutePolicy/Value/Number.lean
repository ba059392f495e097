/-!
# Numbers of a document

A number is an integer of any size or a decimal fraction.  Both are kept exactly: a fraction is a
sign, a mantissa and a power of ten, so reading and printing never round.
-/

namespace RoutePolicy

/-! ## Decimal fractions -/

/-- The number `± mantissa · 10 ^ exponent`; the sign is kept for zero too. -/
structure Decimal where
  negative : Bool
  mantissa : Nat
  exponent : Int
deriving DecidableEq, Repr

namespace Decimal

/-- Drops the zeros at the end of a mantissa and raises the exponent for each. -/
def dropZeros (mantissa : Nat) (exponent : Int) : Nat × Int :=
  if _h : mantissa ≠ 0 ∧ mantissa % 10 = 0 then dropZeros (mantissa / 10) (exponent + 1)
  else (mantissa, exponent)
termination_by mantissa
decreasing_by omega

/-- The fraction with the shortest mantissa among those of the given value. -/
def ofScaled (negative : Bool) (mantissa : Nat) (exponent : Int) : Decimal :=
  let (m, e) := dropZeros mantissa exponent
  { negative, mantissa := m, exponent := if m = 0 then 0 else e }

/-- The digits of a fraction with its decimal point.  A point stands before the digit number
`point`; positions from `-4` to `16` are written out, all others with an exponent that always has
its sign, and a written-out number always has a digit on both sides of the point. -/
def magnitude (d : Decimal) : List Char :=
  let digits := Nat.toDigits 10 d.mantissa
  let point : Int := digits.length + d.exponent
  if d.mantissa = 0 then ['0', '.', '0']
  else if 0 ≤ d.exponent ∧ point ≤ 16 then
    digits ++ List.replicate d.exponent.toNat '0' ++ ['.', '0']
  else if 0 < point ∧ point ≤ 16 then
    digits.take point.toNat ++ '.' :: digits.drop point.toNat
  else if -5 < point ∧ point ≤ 0 then
    ['0', '.'] ++ List.replicate (-point).toNat '0' ++ digits
  else
    let sign := if point - 1 < 0 then '-' else '+'
    let mark := 'e' :: sign :: Nat.toDigits 10 (point - 1).natAbs
    match digits with
    | [] => mark
    | [c] => c :: mark
    | c :: cs => c :: '.' :: cs ++ mark

/-- The text of a fraction. -/
def text (d : Decimal) : String :=
  String.ofList (if d.negative then '-' :: d.magnitude else d.magnitude)

example : (ofScaled false 15 15).text = "1.5e+16" := by decide +kernel
example : (ofScaled false 1 (-5)).text = "0.00001" := by decide +kernel
example : (ofScaled false 1 (-6)).text = "1e-6" := by decide +kernel

end Decimal

/-! ## Numbers -/

/-- The text of an integer: its decimal digits, after a minus sign when it is negative. -/
def integerText (n : Int) : String :=
  String.ofList (if n < 0 then '-' :: Nat.toDigits 10 n.natAbs else Nat.toDigits 10 n.natAbs)

/-- A number of a document. -/
inductive Number where
  | int (n : Int)
  | decimal (d : Decimal)
deriving DecidableEq, Repr

/-- The text of a number. -/
def Number.text : Number → String
  | .int n => integerText n
  | .decimal d => d.text

end RoutePolicy
