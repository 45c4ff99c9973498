/-!
# JSON values

A number is kept as it is written.  A text in JSON can hold half of a pair of code units, which is
no text; such a text is kept apart as `illFormed`, and likewise a name without a text.
-/

namespace AutomationScript

inductive Json where
  | null
  | boolean (value : Bool)
  | number (literal : String)
  | string (value : String)
  /-- A string that is no text. -/
  | illFormed
  | array (items : List Json)
  /-- Members in order; a name that is no text is missing. -/
  | object (members : List (Option String × Json))
deriving Repr, Inhabited

namespace Json

/-- An object whose names are texts. -/
def ofMembers (members : List (String × Json)) : Json :=
  .object (members.map fun (name, value) => (some name, value))

/-- A value that may be missing. -/
def ofOption {α : Type} (encode : α → Json) : Option α → Json
  | none => .null
  | some value => encode value

/-- The literal of a natural number. -/
def ofNat (n : Nat) : Json :=
  .number (String.ofList (Nat.toDigits 10 n))

end Json

end AutomationScript
