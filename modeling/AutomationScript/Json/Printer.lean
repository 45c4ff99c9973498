import AutomationScript.Json.Basic

/-!
# Writing JSON

Two layouts: compact, without any blanks, and indented, with each item and member on a line of its
own and two spaces for each level.  Empty arrays and objects take no lines in either.  Of the
characters of a text only quotes, backslashes and control characters are escaped.
-/

namespace AutomationScript

namespace Json

/-- A digit in base 16. -/
def hexDigit (n : Nat) : Char :=
  if n < 10 then Char.ofNat (48 + n) else Char.ofNat (87 + n)

/-- A character as it stands in a JSON text. -/
def escapeChar (c : Char) : List Char :=
  if c = '"' then ['\\', '"']
  else if c = '\\' then ['\\', '\\']
  else if 0x20 ≤ c.toNat then [c]
  else if c = '\n' then ['\\', 'n']
  else if c = '\t' then ['\\', 't']
  else if c = '\r' then ['\\', 'r']
  else if c.toNat = 8 then ['\\', 'b']
  else if c.toNat = 12 then ['\\', 'f']
  else ['\\', 'u', '0', '0', hexDigit (c.toNat / 16), hexDigit (c.toNat % 16)]

/-- A text in quotes. -/
def quote (text : String) : List Char :=
  '"' :: text.toList.flatMap escapeChar ++ ['"']

private def nameText (name : Option String) : List Char :=
  quote (name.getD "")

mutual

/-- The compact text of a value. -/
def compactChars : Json → List Char
  | .null => "null".toList
  | .boolean true => "true".toList
  | .boolean false => "false".toList
  | .number literal => literal.toList
  | .string value => quote value
  | .illFormed => quote ""
  | .array items => '[' :: compactItems items ++ [']']
  | .object members => '\x7b' :: compactMembers members ++ ['\x7d']

/-- The compact text of the items of an array. -/
def compactItems : List Json → List Char
  | [] => []
  | [last] => compactChars last
  | item :: rest => compactChars item ++ ',' :: compactItems rest

/-- The compact text of the members of an object. -/
def compactMembers : List (Option String × Json) → List Char
  | [] => []
  | [(name, value)] => nameText name ++ ':' :: compactChars value
  | (name, value) :: rest =>
    nameText name ++ ':' :: compactChars value ++ ',' :: compactMembers rest

end

/-- A line break and the indentation of a level. -/
def lineStart (level : Nat) : List Char :=
  '\n' :: List.replicate (2 * level) ' '

mutual

/-- The indented text of a value that stands at a level. -/
def indentedChars (level : Nat) : Json → List Char
  | .array [] => ['[', ']']
  | .array (item :: rest) =>
    '[' :: indentedItems (level + 1) (item :: rest) ++ lineStart level ++ [']']
  | .object [] => ['\x7b', '\x7d']
  | .object (member :: rest) =>
    '\x7b' :: indentedMembers (level + 1) (member :: rest) ++ lineStart level ++ ['\x7d']
  | value => compactChars value

/-- The indented text of the items of an array. -/
def indentedItems (level : Nat) : List Json → List Char
  | [] => []
  | [last] => lineStart level ++ indentedChars level last
  | item :: rest => lineStart level ++ indentedChars level item ++ ',' :: indentedItems level rest

/-- The indented text of the members of an object. -/
def indentedMembers (level : Nat) : List (Option String × Json) → List Char
  | [] => []
  | [(name, value)] =>
    lineStart level ++ nameText name ++ ':' :: ' ' :: indentedChars level value
  | (name, value) :: rest =>
    lineStart level ++ nameText name ++ ':' :: ' ' :: indentedChars level value ++
      ',' :: indentedMembers level rest

end

/-- The compact text of a value. -/
def compact (value : Json) : String :=
  String.ofList (compactChars value)

/-- The indented text of a value. -/
def indented (value : Json) : String :=
  String.ofList (indentedChars 0 value)

/-- The text of a value in one of the two layouts. -/
def render (pretty : Bool) (value : Json) : String :=
  if pretty then value.indented else value.compact

end Json

end AutomationScript
