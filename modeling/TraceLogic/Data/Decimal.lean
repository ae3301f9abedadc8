/-!
# Decimal numerals

A numeral as it is written: sign, digits in front of and behind the point, exponent. Whether it is
too large for a double-precision float depends on how it is read. `Decimal.overflows` rounds only
once, as a reader of configurations does. `Decimal.outOfRange` first rounds the digits and the power
of ten to floats and then multiplies these, as a reader of descriptions does. Both are decided in
exact arithmetic.
-/

namespace TraceLogic

/-- The value of a list of decimal digits. -/
def digitsValue (digits : List Char) : Nat :=
  digits.foldl (fun n d => 10 * n + (d.toNat - '0'.toNat)) 0

/-- A number as it is written. -/
structure Decimal where
  /-- Whether there is a minus sign. -/
  negative : Bool
  /-- The digits in front of the point. -/
  whole : List Char
  /-- The digits after the point. -/
  fraction : List Char
  /-- The number after the exponent sign, if there is one. -/
  exponent : Option Int
deriving DecidableEq

namespace Decimal

/-- Whether a number is written without point and exponent. -/
def isWhole (n : Decimal) : Bool := n.fraction.isEmpty && n.exponent.isNone

/-- The value of a number that is written as an integer. A zero with a minus sign is none. -/
def integer? (n : Decimal) : Option Int :=
  if n.isWhole then
    let value := digitsValue n.whole
    if n.negative then if value = 0 then none else some (-(value : Int)) else some value
  else none

/-- The digits of a number without the zeros in front, and the power of ten that they count. -/
def scaled (n : Decimal) : List Char × Int :=
  ((n.whole ++ n.fraction).dropWhile (· = '0'), n.exponent.getD 0 - n.fraction.length)

/-- The magnitude from which on a number is rounded to infinity: halfway from the largest float to
the next power of two. -/
def infinite : Nat := Nat.pow 2 1024 - Nat.pow 2 970

/-- Whether the magnitude of a number is too large for a double-precision float. -/
def overflows (n : Decimal) : Bool :=
  let (digits, power) := n.scaled
  let size := power + digits.length
  if digits.isEmpty || size < 300 then false
  else if size > 320 then true
  else
    if 0 ≤ power then infinite ≤ digitsValue digits * Nat.pow 10 power.toNat
    else infinite * Nat.pow 10 (-power).toNat ≤ digitsValue digits

/-- Appends digits to a number as long as it fits into 64 bits. Returns the number, and how many
digits are left. -/
def accumulate (n : Nat) : List Char → Nat × Nat
  | [] => (n, 0)
  | d :: ds =>
    let longer := 10 * n + (d.toNat - '0'.toNat)
    if longer < 0x10000000000000000 then accumulate longer ds else (n, ds.length + 1)

/-- The digits of a number that fit into 64 bits, and the power of ten that they count. Digits in
front of the point that are left count as zeros, and those behind it do not count. -/
def significand (n : Decimal) : Nat × Int :=
  let (value, dropped) := accumulate 0 n.whole
  let (value, ignored) := accumulate value n.fraction
  (value, n.exponent.getD 0 + dropped - (n.fraction.length - ignored : Nat))

/-- The float that is nearest to a number, with 53 bits. Of two floats that are equally near it is
the one whose last bit is zero. -/
def toFloat (n : Nat) : Nat :=
  let unit := Nat.pow 2 (n.log2 - 52)
  let kept := n / unit
  let rest := n % unit
  if unit < 2 * rest ∨ (unit = 2 * rest ∧ kept % 2 = 1) then (kept + 1) * unit else kept * unit

/-- Whether the product of the digits of a number and its power of ten, both taken as floats, is
infinite. Powers of ten above the largest one that is a float are not tried. -/
def outOfRange (n : Decimal) : Bool :=
  let (value, power) := n.significand
  if value = 0 ∨ power < 0 then false
  else if 308 < power then true
  else infinite ≤ toFloat value * toFloat (Nat.pow 10 power.toNat)

end Decimal

end TraceLogic
