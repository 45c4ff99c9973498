import AutomationScript.Number.Basic

/-!
# Shortest decimals

The shortest decimal of a positive number is the one with the fewest digits among those that read
back to it; of several such the one nearest to it.  Where two are equally near, the caller decides.

The reals that round to `significand * 2 ^ exponent` form an interval.  For one, two, three and
more digits the search tests the two neighbours of the number on the grid of decimals with that
many digits, in exact arithmetic, and stops at the first grid with a neighbour in the interval.
-/

namespace AutomationScript

/-- The decimal `digits * 10 ^ power`. -/
structure Decimal where
  digits : Nat
  power : Int
deriving DecidableEq, Repr, Inhabited

namespace Decimal

/-- The same decimal without zeros at the end of its digits, as far as `fuel` allows. -/
def stripZeros : (fuel : Nat) → Decimal → Decimal
  | 0, d => d
  | fuel + 1, d =>
    if d.digits ≠ 0 ∧ d.digits % 10 = 0 then
      stripZeros fuel ⟨d.digits / 10, d.power + 1⟩
    else
      d

/-- The digits as text. -/
def digitText (d : Decimal) : List Char :=
  Nat.toDigits 10 d.digits

/-- The power of ten of the leading digit. -/
def leadingPower (d : Decimal) : Int :=
  d.digitText.length + d.power - 1

end Decimal

/-- Which of two equally near decimals is taken. -/
inductive Tie where
  | up
  | toEven
deriving DecidableEq, Repr

namespace Number

/-- Lower end, value and upper end of the reals that round to a number, as numerators over one
denominator, and whether the ends belong to them. -/
structure Interval where
  low : Nat
  value : Nat
  high : Nat
  denominator : Nat
  closed : Bool

/-- The reals that round to `significand * 2 ^ exponent`.  Below a power of two the numbers are
twice as dense, so the lower end is nearer there. -/
def interval (significand : Nat) (exponent : Int) : Interval :=
  let below := if significand = Nat.pow 2 52 ∧ minExponent < exponent then 1 else 2
  let factor := Nat.pow 2 (exponent - 2).toNat
  { low := (4 * significand - below) * factor
    value := 4 * significand * factor
    high := (4 * significand + 2) * factor
    denominator := Nat.pow 2 (2 - exponent).toNat
    closed := significand % 2 == 0 }

/-- Whether the decimal lies in the interval. -/
def Interval.contains (i : Interval) (d : Decimal) : Bool :=
  let scale := Nat.pow 10 (-d.power).toNat
  let point := d.digits * Nat.pow 10 d.power.toNat * i.denominator
  if i.closed then
    i.low * scale ≤ point && point ≤ i.high * scale
  else
    i.low * scale < point && point < i.high * scale

/-- The number of digits before the decimal point; zero or negative when the value is below one
and that many zeros follow the point. -/
def Interval.integralDigits (i : Interval) : Int :=
  let whole := i.value / i.denominator
  if whole = 0 then
    -((List.range 400).find? fun zeros =>
      i.denominator ≤ i.value * Nat.pow 10 (zeros + 1)).getD 400
  else
    digitCount whole

/-- The neighbour of the value on the grid of multiples of `10 ^ power` that lies in the interval,
the nearer one if both do. -/
def Interval.neighbour? (i : Interval) (tie : Tie) (power : Int) : Option Decimal :=
  let num := i.value * Nat.pow 10 (-power).toNat
  let den := i.denominator * Nat.pow 10 power.toNat
  let lower : Decimal := ⟨num / den, power⟩
  let upper : Decimal := ⟨num / den + 1, power⟩
  match i.contains lower, i.contains upper with
  | false, false => none
  | true, false => some lower
  | false, true => some upper
  | true, true =>
    let twice := 2 * (num % den)
    if twice < den then some lower
    else if den < twice then some upper
    else
      match tie with
      | .up => some upper
      | .toEven => if lower.digits % 2 = 0 then some lower else some upper

/-- The shortest decimal of the positive number `significand * 2 ^ exponent`. -/
def shortest (tie : Tie) (significand : Nat) (exponent : Int) : Decimal :=
  let i := interval significand exponent
  let digits := i.integralDigits
  let found := (List.range 20).findSome? fun (n : Nat) => i.neighbour? tie (digits - (n + 1 : Nat))
  (found.getD ⟨significand, exponent⟩).stripZeros 20

end Number

end AutomationScript
