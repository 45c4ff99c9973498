import AutomationScript.Number.Shortest

/-!
# Number texts

Numbers are written in two ways.  In diagnostics and in text for the runtime they are positional,
however long that is, and an integer has no fraction.  In documents a number that is not a small
integer keeps a fraction, and very large and very small magnitudes take an exponent.

`Number.read?` reads decimal numerals with an optional sign, fraction and exponent, and the names
of the values that have no numeral.
-/

namespace AutomationScript

private def zeros (count : Nat) : List Char :=
  List.replicate count '0'

/-- The digits of a decimal with the point in its place, and no point after the last digit. -/
def Decimal.positional (d : Decimal) : List Char :=
  let text := d.digitText
  let fraction := (-d.power).toNat
  if fraction = 0 then
    text ++ zeros d.power.toNat
  else if fraction < text.length then
    text.take (text.length - fraction) ++ '.' :: text.drop (text.length - fraction)
  else
    '0' :: '.' :: zeros (fraction - text.length) ++ text

/-- The digits of a decimal with the point after the first one, and the power of ten. -/
def Decimal.scientific (d : Decimal) : List Char :=
  let power := d.leadingPower
  let sign := if power < 0 then '-' else '+'
  let mantissa :=
    match d.digitText with
    | first :: second :: rest => first :: '.' :: second :: rest
    | digits => digits
  mantissa ++ 'e' :: sign :: Nat.toDigits 10 power.natAbs

/-- An integer in decimal digits. -/
def integerText (n : Int) : String :=
  let digits := Nat.toDigits 10 n.natAbs
  String.ofList (if n < 0 then '-' :: digits else digits)

namespace Number

private def withSign (negative : Bool) (text : List Char) : String :=
  String.ofList (if negative then '-' :: text else text)

/-- The shortest positional text that reads back; of two equally near ones the greater. -/
def plainText : Number → String
  | .finite negative significand exponent =>
    if significand = 0 then
      withSign negative ['0']
    else
      withSign negative (shortest .up significand exponent).positional
  | .infinite negative => withSign negative ['i', 'n', 'f']
  | .notANumber => "NaN"

/-- The text of a number in diagnostics and in text for the runtime. -/
def text (x : Number) : String :=
  match x.toSmallInt? with
  | some n => integerText n
  | none => x.plainText

/-- The text of a finite number in a document.  The point is in its place, and a fraction always
follows it, while the leading digit stands for a power of ten from `-5` to `15`; otherwise the
text has an exponent.  Of two equally near shortest decimals the even one is taken. -/
def documentText (negative : Bool) (significand : Nat) (exponent : Int) : String :=
  let decimal := shortest .toEven significand exponent
  let power := decimal.leadingPower
  let unsigned :=
    if -5 ≤ power && power < 16 then
      if 0 ≤ decimal.power then decimal.positional ++ ['.', '0'] else decimal.positional
    else
      decimal.scientific
  withSign negative unsigned

/-- The value of a row of decimal digits. -/
def ofDigits (digits : List Char) : Nat :=
  digits.foldl (fun value c => 10 * value + (c.toNat - '0'.toNat)) 0

/-- The number nearest to the numeral with these digits before and after the point. -/
def ofNumeral (negative : Bool) (whole fraction : List Char) (power : Int) : Number :=
  ofDecimal negative (ofDigits (whole ++ fraction)) (power - fraction.length)

private def readPower? : List Char → Option Int
  | [] => some 0
  | mark :: rest =>
    if mark = 'e' ∨ mark = 'E' then
      let (negative, digits) :=
        match rest with
        | '-' :: digits => (true, digits)
        | '+' :: digits => (false, digits)
        | digits => (false, digits)
      if digits.isEmpty || !digits.all Char.isDigit then
        none
      else
        some (if negative then -(ofDigits digits : Int) else ofDigits digits)
    else
      none

private def readUnsigned? (negative : Bool) (chars : List Char) : Option Number :=
  let lower := chars.map Char.toLower
  if lower = ['i', 'n', 'f'] ∨ lower = "infinity".toList then
    some (.infinite negative)
  else if lower = ['n', 'a', 'n'] then
    some .notANumber
  else
    let whole := chars.takeWhile Char.isDigit
    let afterWhole := chars.dropWhile Char.isDigit
    let (fraction, rest) :=
      match afterWhole with
      | '.' :: more => (more.takeWhile Char.isDigit, more.dropWhile Char.isDigit)
      | more => ([], more)
    if whole.isEmpty && fraction.isEmpty then
      none
    else
      (readPower? rest).map (ofNumeral negative whole fraction)

/-- Reads a numeral: an optional sign, digits with an optional point, and an optional power of
ten; or `inf`, `infinity` or `nan` in any case. -/
def read? (text : String) : Option Number :=
  match text.toList with
  | '-' :: rest => readUnsigned? true rest
  | '+' :: rest => readUnsigned? false rest
  | chars => readUnsigned? false chars

end Number

end AutomationScript
