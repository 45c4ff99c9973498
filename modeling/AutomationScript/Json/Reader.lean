import AutomationScript.Json.Basic

/-!
# Reading JSON

`Json.parse?` reads a text that is one JSON value with blanks around it.  Numbers have no leading
zeros, texts have no bare control characters, and nothing may follow the value.

Every reader takes the characters at hand and gives what it read and the characters after it.
Nesting and the lengths of arrays and objects are bounded by the number of characters.
-/

namespace AutomationScript

namespace Json

/-- A blank of JSON. -/
def isJsonBlank (c : Char) : Bool :=
  c == ' ' || c == '\n' || c == '\t' || c == '\r'

def skipBlanks (chars : List Char) : List Char :=
  chars.dropWhile isJsonBlank

/-- The characters after a word that they start with. -/
def afterWord? : (word chars : List Char) → Option (List Char)
  | [], chars => some chars
  | w :: word, c :: chars => if w = c then afterWord? word chars else none
  | _ :: _, [] => none

/-- Digits, at least one of them. -/
def readDigits? (chars : List Char) : Option (List Char × List Char) :=
  match chars.takeWhile Char.isDigit with
  | [] => none
  | digits => some (digits, chars.dropWhile Char.isDigit)

/-- The digits before the point: a zero, or digits of which the first is no zero. -/
def readWhole? : List Char → Option (List Char × List Char)
  | '0' :: rest =>
    match rest with
    | c :: _ => if c.isDigit then none else some (['0'], rest)
    | [] => some (['0'], [])
  | chars => readDigits? chars

/-- A point and the digits after it, if there is a point. -/
def readFraction? : List Char → Option (List Char × List Char)
  | '.' :: rest => do
    let (digits, rest) ← readDigits? rest
    return ('.' :: digits, rest)
  | chars => some ([], chars)

/-- The mark and the digits of a power of ten, if there is a mark. -/
def readPower? : List Char → Option (List Char × List Char)
  | c :: rest =>
    if c = 'e' ∨ c = 'E' then
      let (sign, digits) :=
        match rest with
        | '+' :: digits => (['+'], digits)
        | '-' :: digits => (['-'], digits)
        | digits => ([], digits)
      do
        let (digits, rest) ← readDigits? digits
        return (c :: sign ++ digits, rest)
    else
      some ([], c :: rest)
  | [] => some ([], [])

/-- A number. -/
def readNumber? (chars : List Char) : Option (Json × List Char) := do
  let (sign, chars) :=
    match chars with
    | '-' :: rest => (['-'], rest)
    | chars => ([], chars)
  let (whole, chars) ← readWhole? chars
  let (fraction, chars) ← readFraction? chars
  let (power, chars) ← readPower? chars
  return (.number (String.ofList (sign ++ whole ++ fraction ++ power)), chars)

/-- The value of a hexadecimal digit. -/
def hexValue? (c : Char) : Option Nat :=
  if '0' ≤ c ∧ c ≤ '9' then some (c.toNat - '0'.toNat)
  else if 'a' ≤ c ∧ c ≤ 'f' then some (c.toNat - 'a'.toNat + 10)
  else if 'A' ≤ c ∧ c ≤ 'F' then some (c.toNat - 'A'.toNat + 10)
  else none

/-- The code unit of four hexadecimal digits. -/
def readUnit? : List Char → Option (Nat × List Char)
  | a :: b :: c :: d :: rest => do
    let a ← hexValue? a
    let b ← hexValue? b
    let c ← hexValue? c
    let d ← hexValue? d
    return (((a * 16 + b) * 16 + c) * 16 + d, rest)
  | _ => none

def isHighHalf (unit : Nat) : Bool :=
  0xD800 ≤ unit && unit < 0xDC00

def isLowHalf (unit : Nat) : Bool :=
  0xDC00 ≤ unit && unit < 0xE000

/-- The character that an escape other than a code unit stands for. -/
def simpleEscape? (c : Char) : Option Char :=
  if c = '"' ∨ c = '\\' ∨ c = '/' then some c
  else if c = 'n' then some '\n'
  else if c = 't' then some '\t'
  else if c = 'r' then some '\r'
  else if c = 'b' then some (Char.ofNat 8)
  else if c = 'f' then some (Char.ofNat 12)
  else none

/-- A unit of a text in quotes: a character, or a code unit written with digits. -/
inductive TextUnit where
  | char (c : Char)
  | unit (code : Nat)

/-- The units of a text in quotes, from after the first quote. -/
def readUnits? : (fuel : Nat) → List Char → Option (List TextUnit × List Char)
  | 0, _ => none
  | _ + 1, [] => none
  | fuel + 1, c :: rest =>
    if c = '"' then
      some ([], rest)
    else if c = '\\' then
      match rest with
      | 'u' :: digits => do
        let (unit, rest) ← readUnit? digits
        let (units, rest) ← readUnits? fuel rest
        return (.unit unit :: units, rest)
      | e :: rest => do
        let char ← simpleEscape? e
        let (units, rest) ← readUnits? fuel rest
        return (.char char :: units, rest)
      | [] => none
    else if c.toNat < 0x20 then
      none
    else do
      let (units, rest) ← readUnits? fuel rest
      return (.char c :: units, rest)

/-- The characters of the units, if each half of a pair has its partner. -/
def joinUnits? : List TextUnit → Option (List Char)
  | [] => some []
  | .char c :: rest => (joinUnits? rest).map (c :: ·)
  | .unit high :: .unit low :: rest =>
    if isHighHalf high then
      if isLowHalf low then
        let code := 0x10000 + (high - 0xD800) * 0x400 + (low - 0xDC00)
        (joinUnits? rest).map (Char.ofNat code :: ·)
      else
        none
    else if isLowHalf high then
      none
    else
      (joinUnits? (.unit low :: rest)).map (Char.ofNat high :: ·)
  | .unit code :: rest =>
    if isHighHalf code || isLowHalf code then
      none
    else
      (joinUnits? rest).map (Char.ofNat code :: ·)

/-- A text in quotes, from after the first quote; `none` inside if it is no text. -/
def readText? (chars : List Char) : Option (Option String × List Char) := do
  let (units, rest) ← readUnits? (chars.length + 1) chars
  return ((joinUnits? units).map String.ofList, rest)

/-- Items of an array, after an opening bracket or a comma, to the closing bracket. -/
def readItems? (value? : List Char → Option (Json × List Char)) :
    (fuel : Nat) → List Char → Option (List Json × List Char)
  | 0, _ => none
  | fuel + 1, chars => do
    let (item, rest) ← value? chars
    match skipBlanks rest with
    | ',' :: rest =>
      let (items, rest) ← readItems? value? fuel rest
      return (item :: items, rest)
    | ']' :: rest => return ([item], rest)
    | _ => none

/-- Members of an object, after an opening brace or a comma, to the closing brace. -/
def readMembers? (value? : List Char → Option (Json × List Char)) :
    (fuel : Nat) → List Char → Option (List (Option String × Json) × List Char)
  | 0, _ => none
  | fuel + 1, chars =>
    match skipBlanks chars with
    | '"' :: rest => do
      let (name, rest) ← readText? rest
      match skipBlanks rest with
      | ':' :: rest =>
        let (value, rest) ← value? rest
        match skipBlanks rest with
        | ',' :: rest =>
          let (members, rest) ← readMembers? value? fuel rest
          return ((name, value) :: members, rest)
        | '\x7d' :: rest => return ([(name, value)], rest)
        | _ => none
      | _ => none
    | _ => none

/-- A value with blanks before it, nested at most `depth` deep. -/
def readValue? : (depth : Nat) → List Char → Option (Json × List Char)
  | 0, _ => none
  | depth + 1, chars =>
    match skipBlanks chars with
    | 'n' :: rest => (afterWord? "ull".toList rest).map (Json.null, ·)
    | 't' :: rest => (afterWord? "rue".toList rest).map (Json.boolean true, ·)
    | 'f' :: rest => (afterWord? "alse".toList rest).map (Json.boolean false, ·)
    | '"' :: rest => do
      let (text, rest) ← readText? rest
      return ((text.map Json.string).getD .illFormed, rest)
    | '[' :: rest =>
      match skipBlanks rest with
      | ']' :: rest => some (.array [], rest)
      | _ => do
        let (items, rest) ← readItems? (readValue? depth) (rest.length + 1) rest
        return (.array items, rest)
    | '\x7b' :: rest =>
      match skipBlanks rest with
      | '\x7d' :: rest => some (.object [], rest)
      | _ => do
        let (members, rest) ← readMembers? (readValue? depth) (rest.length + 1) rest
        return (.object members, rest)
    | chars => readNumber? chars

/-- The value that a text is. -/
def parse? (text : String) : Option Json :=
  let chars := text.toList
  match readValue? (chars.length + 1) chars with
  | some (value, rest) => if (skipBlanks rest).isEmpty then some value else none
  | none => none

end Json

end AutomationScript
