import AutomationScript.Number.Text

/-!
# The range of numbers

A number whose type is not known yet is held as a word times a power of ten.  The word takes the
leading digits that fit into it.  Further digits before the point only raise the power, and further
ones after the point are dropped.

Such a number is in range if the product of the word and the power is a finite number.  Both
factors are rounded, and their product is rounded once more, so a numeral close to the greatest
finite number may fall on either side.
-/

namespace AutomationScript

namespace Json

/-- The digits of a numeral that are kept, and the power of ten that they are multiplied with. -/
structure Magnitude where
  word : Nat
  power : Int
deriving DecidableEq, Repr

namespace Magnitude

/-- The words are the natural numbers below this. -/
def wordLimit : Nat := Nat.pow 2 64

/-- The greatest power of ten that is a finite number. -/
def powerLimit : Nat := 308

/-- Puts digits at the end of a word for as long as they fit.  The answer is the word and the
digits that are left. -/
def fill (word : Nat) : List Char → Nat × List Char
  | [] => (word, [])
  | digit :: rest =>
    let longer := 10 * word + Number.ofDigits [digit]
    if longer < wordLimit then fill longer rest else (word, digit :: rest)

/-- The magnitude of the digits before and after the point. -/
def ofDigits (whole fraction : List Char) : Magnitude :=
  let (word, dropped) := fill 0 whole
  let (word, ignored) := fill word fraction
  ⟨word, (dropped.length : Int) - (fraction.length - ignored.length : Nat)⟩

/-- The power of ten after its mark. -/
def readPower : List Char → Int
  | [] => 0
  | '-' :: digits => -(Number.ofDigits digits : Int)
  | '+' :: digits => Number.ofDigits digits
  | digits => Number.ofDigits digits

/-- The magnitude of a numeral without a sign. -/
def read (chars : List Char) : Magnitude :=
  let whole := chars.takeWhile Char.isDigit
  let (fraction, rest) :=
    match chars.dropWhile Char.isDigit with
    | '.' :: more => (more.takeWhile Char.isDigit, more.dropWhile Char.isDigit)
    | more => ([], more)
  let magnitude := ofDigits whole fraction
  { magnitude with power := magnitude.power + readPower (rest.drop 1) }

/-- The natural number nearest to `n` that is a number, if it is finite. -/
def rounded? (n : Nat) : Option Nat :=
  (Number.nearest false n 1).toInt?.map Int.toNat

/-- Whether the product of the rounded factors is finite. -/
def isFinite (magnitude : Magnitude) : Bool :=
  if magnitude.power ≤ 0 ∨ magnitude.word = 0 then
    true
  else if powerLimit < magnitude.power then
    false
  else
    let product := do
      let word ← rounded? magnitude.word
      let scale ← rounded? (Nat.pow 10 magnitude.power.toNat)
      rounded? (word * scale)
    product.isSome

end Magnitude

/-- Whether a numeral is in range. -/
def isInRange (literal : String) : Bool :=
  let unsigned :=
    match literal.toList with
    | '-' :: rest => rest
    | chars => chars
  (Magnitude.read unsigned).isFinite

end Json

end AutomationScript
