/-!
# Numbers

Numbers of the language are binary64 numbers: sign, significand and exponent, two infinities and
a value that is no number.  The compiler never computes with them.  It reads them, compares them
with integers and writes them, and all of that is exact arithmetic on the significand and the
exponent.

`Number.nearest` rounds a fraction to the nearest number, and `Number.ofDecimal` does so for a
decimal numeral.  Ties go to the even significand.
-/

namespace AutomationScript

/-- A binary64 number.  `finite negative significand exponent` stands for
`± significand * 2 ^ exponent`. -/
inductive Number where
  | finite (negative : Bool) (significand : Nat) (exponent : Int)
  | infinite (negative : Bool)
  | notANumber
deriving DecidableEq, Repr, Inhabited

namespace Number

/-- The exponent of the least positive number. -/
def minExponent : Int := -1074

/-- The exponent of the greatest finite number. -/
def maxExponent : Int := 971

/-- The number zero, with its sign. -/
def zero (negative : Bool) : Number :=
  .finite negative 0 minExponent

/-- The numerator and denominator of `num / den / 2 ^ exponent`. -/
def scaled (num den : Nat) (exponent : Int) : Nat × Nat :=
  if 0 ≤ exponent then
    (num, den * Nat.pow 2 exponent.toNat)
  else
    (num * Nat.pow 2 (-exponent).toNat, den)

/-- The quotient rounded to the nearest integer; a tie goes to the even one. -/
def roundToEven (num den : Nat) : Nat :=
  let quotient := num / den
  let remainder := num % den
  if den < 2 * remainder || (den == 2 * remainder && quotient % 2 == 1) then
    quotient + 1
  else
    quotient

/-- The exponent that gives the positive fraction `num / den` a significand of 53 bits, or the
least exponent when that would be smaller. -/
def exponentOf (num den : Nat) : Int :=
  let guess := (Nat.log2 num : Int) - Nat.log2 den - 52
  let (n, d) := scaled num den guess
  let exact := if n / d < Nat.pow 2 52 then guess - 1 else guess
  max exact minExponent

/-- The number nearest to `± num / den`, where `den` is positive. -/
def nearest (negative : Bool) (num den : Nat) : Number :=
  if num = 0 then
    zero negative
  else
    let exponent := exponentOf num den
    let (n, d) := scaled num den exponent
    let rounded := roundToEven n d
    let (significand, exponent) :=
      if rounded = Nat.pow 2 53 then (Nat.pow 2 52, exponent + 1) else (rounded, exponent)
    if maxExponent < exponent then
      .infinite negative
    else
      .finite negative significand exponent

/-- The count of decimal digits of a natural number. -/
def digitCount (n : Nat) : Nat :=
  (Nat.toDigits 10 n).length

/-- The number nearest to `± digits * 10 ^ power`.  Far outside the range of finite numbers the
answer is an infinity or zero, and no power is computed. -/
def ofDecimal (negative : Bool) (digits : Nat) (power : Int) : Number :=
  if digits = 0 then
    zero negative
  else
    let magnitude := (digitCount digits : Int) + power
    if 310 < magnitude then
      .infinite negative
    else if magnitude < -330 then
      zero negative
    else if 0 ≤ power then
      nearest negative (digits * Nat.pow 10 power.toNat) 1
    else
      nearest negative digits (Nat.pow 10 (-power).toNat)

/-- The number of an integer. -/
def ofInt (n : Int) : Number :=
  nearest (n < 0) n.natAbs 1

/-- The number with the other sign. -/
def negate : Number → Number
  | .finite negative significand exponent => .finite (!negative) significand exponent
  | .infinite negative => .infinite (!negative)
  | .notANumber => .notANumber

/-- Whether this is a zero, of either sign. -/
def isZero : Number → Bool
  | .finite _ significand _ => significand == 0
  | _ => false

/-- The magnitude with its fraction cut off. -/
def truncatedMagnitude (significand : Nat) (exponent : Int) : Nat :=
  if 0 ≤ exponent then
    significand * Nat.pow 2 exponent.toNat
  else
    significand / Nat.pow 2 (-exponent).toNat

/-- Whether `significand * 2 ^ exponent` is an integer. -/
def isIntegral (significand : Nat) (exponent : Int) : Bool :=
  0 ≤ exponent || significand % Nat.pow 2 (-exponent).toNat == 0

private def signed (negative : Bool) (magnitude : Nat) : Int :=
  if negative then -(magnitude : Int) else magnitude

/-- The number as an integer, if it is one. -/
def toInt? : Number → Option Int
  | .finite negative significand exponent =>
    if isIntegral significand exponent then
      some (signed negative (truncatedMagnitude significand exponent))
    else
      none
  | _ => none

/-- The number as an integer of magnitude below `2 ^ 53`, if it is one.  These are the integers
that are written without a fraction. -/
def toSmallInt? (x : Number) : Option Int :=
  x.toInt?.filter fun n => n.natAbs < Nat.pow 2 53

/-- The 64-bit signed integers go from minus this number up to below it. -/
def int64Limit : Int := Nat.pow 2 63

/-- The number as a 64-bit signed integer: the fraction is cut off, values out of range go to the
nearer end of the range, and what is no number goes to zero. -/
def toInt64 : Number → Int
  | .finite negative significand exponent =>
    let n := signed negative (truncatedMagnitude significand exponent)
    max (-int64Limit) (min n (int64Limit - 1))
  | .infinite negative => if negative then -int64Limit else int64Limit - 1
  | .notANumber => 0

end Number

end AutomationScript
