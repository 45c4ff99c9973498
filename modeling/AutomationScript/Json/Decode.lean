import AutomationScript.Json.Range
import AutomationScript.Json.Reader
import AutomationScript.Number.Text
import AutomationScript.Table

/-!
# Decoding JSON

Readers of typed values from JSON values.  A record is an object, whose unknown members are
ignored and whose known ones come once at most, or an array of its fields in order.  A table is an
object, in which a name may come again and the last value counts.
-/

namespace AutomationScript

namespace Json

/-- A text. -/
def decodeText : Json → Option String
  | .string value => some value
  | _ => none

def decodeBool : Json → Option Bool
  | .boolean value => some value
  | _ => none

/-- A value, or null for none. -/
def decodeOption {α : Type} (decode : Json → Option α) : Json → Option (Option α)
  | .null => some none
  | value => (decode value).map some

/-- An array of values of one type. -/
def decodeList {α : Type} (decode : Json → Option α) : Json → Option (List α)
  | .array items => items.mapM decode
  | _ => none

/-- A natural number below `limit`, written with digits only. -/
def decodeNat (limit : Nat) : Json → Option Nat
  | .number literal =>
    if literal.toList.all Char.isDigit then
      some (Number.ofDigits literal.toList) |>.filter (· < limit)
    else
      none
  | _ => none

/-- The values of all members with a name. -/
def valuesOf (name : String) (members : List (Option String × Json)) : List Json :=
  members.filterMap fun member => if member.1 = some name then some member.2 else none

/-- The value of the only member with a name; `none` inside if there is no such member. -/
def soleValue (name : String) (members : List (Option String × Json)) : Option (Option Json) :=
  match valuesOf name members with
  | [] => some none
  | [value] => some (some value)
  | _ => none

/-- The fields of a record, each of which may be missing. -/
def decodeFields (names : List String) : Json → Option (List (Option Json))
  | .object members =>
    if members.all fun member => member.1.isSome then
      names.mapM fun name => soleValue name members
    else
      none
  | .array items =>
    if items.length ≤ names.length then
      some (items.map some ++ List.replicate (names.length - items.length) none)
    else
      none
  | _ => none

/-- A field that must be there. -/
def required {α : Type} (decode : Json → Option α) (field : Option Json) : Option α :=
  field.bind decode

/-- A field that has a default. -/
def optional {α : Type} (default : α) (decode : Json → Option α) : Option Json → Option α
  | none => some default
  | some value => decode value

private def decodeMember {α : Type} (decode : Json → Option α) (member : Option String × Json) :
    Option (String × α) := do
  let name ← member.1
  let value ← decode member.2
  return (name, value)

/-- A table of values of one type. -/
def decodeTable {α : Type} (decode : Json → Option α) : Json → Option (Table α)
  | .object members => (members.mapM (decodeMember decode)).map Table.ofList
  | _ => none

/-- A table as an object. -/
def encodeTable {α : Type} (encode : α → Json) (table : Table α) : Json :=
  .ofMembers (table.entries.map fun entry => (entry.1, encode entry.2))

def encodeTexts (texts : List String) : Json :=
  .array (texts.map .string)

mutual

/-- Whether a value can be held before its type is known: all its texts are texts, its numbers are
in range, and it is nested less than `room` deep. -/
def isHeld (room : Nat) : Json → Bool
  | .null | .boolean _ | .string _ => true
  | .illFormed => false
  | .number literal => isInRange literal
  | .array items => 1 < room && allHeld (room - 1) items
  | .object members => 1 < room && allMembersHeld (room - 1) members

/-- Whether all items can be held. -/
def allHeld (room : Nat) : List Json → Bool
  | [] => true
  | item :: rest => isHeld room item && allHeld room rest

/-- Whether all members can be held. -/
def allMembersHeld (room : Nat) : List (Option String × Json) → Bool
  | [] => true
  | (name, value) :: rest => name.isSome && isHeld room value && allMembersHeld room rest

end

/-- The depth below which values are nested while they are read. -/
def nestingLimit : Nat := 128

end Json

end AutomationScript
