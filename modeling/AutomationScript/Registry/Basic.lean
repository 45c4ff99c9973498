import AutomationScript.Program.Names
import AutomationScript.Table
import AutomationScript.Text.LowerCase

/-!
# Registries

What a script can talk about: settings and families of settings, categories of values that the
runtime can read, short names for some of those, and the words of triggers.
-/

namespace AutomationScript

/-- The type of a setting or of a value that the runtime can read. -/
inductive ValueType where
  | string
  | number
  | boolean
deriving DecidableEq, Repr, Inhabited

namespace ValueType

def name : ValueType → String
  | .string => "string"
  | .number => "number"
  | .boolean => "boolean"

/-- The type with this name, if there is one. -/
def ofName? (text : String) : Option ValueType :=
  [ValueType.string, .number, .boolean].find? fun type => type.name == text

end ValueType

/-- How the keys of a category are brought into the form that the runtime knows. -/
inductive KeyAlias where
  | lowercase
  /-- A key without a hyphen gets this word and a hyphen before it. -/
  | namespaced (default : String)
  /-- Keys that are renamed. -/
  | table (entries : Table String)
deriving DecidableEq, Repr

/-- The form of a key that the runtime knows. -/
def KeyAlias.apply (key : String) : KeyAlias → String
  | .lowercase => lowerCase key
  | .namespaced default => if key.toList.contains '-' then key else default ++ "-" ++ key
  | .table entries => (entries.get? key).getD key

/-- Settings whose ids are a common stem followed by one of several suffixes. -/
structure Family where
  stem : String
  suffixes : List String
  /-- What a suffix names, for diagnostics. -/
  noun : String
  type : ValueType
deriving DecidableEq, Repr

/-- A category of values that the runtime can read, each under a key. -/
structure Category where
  type : Option ValueType
  allowed : Option (List String)
  /-- What a key names, for diagnostics. -/
  noun : String
  keyAlias : Option KeyAlias
deriving DecidableEq, Repr

/-- A value of the category `Other` with a name of its own. -/
structure NamedValue where
  target : String
  type : ValueType
deriving DecidableEq, Repr

/-- The words of one kind of trigger condition or action. -/
structure Vocabulary where
  /-- The name that the runtime knows the kind by. -/
  type : String
  allowed : List String
  /-- What an id names, for diagnostics. -/
  noun : String
  /-- What stands before ids in the form that the runtime knows. -/
  idStem : Option String
deriving DecidableEq, Repr

/-- The rest of a text after a stem, if it starts with it. -/
def afterStem? (stem text : String) : Option String :=
  if stem.toList.isPrefixOf text.toList then
    some (String.ofList (text.toList.drop stem.toList.length))
  else
    none

/-- The form of an id that the runtime knows.  The id may have that form already. -/
def Vocabulary.canonicalId (v : Vocabulary) (id : String) : Option String :=
  match v.idStem with
  | none => if v.allowed.contains id then some id else none
  | some stem =>
    if v.allowed.contains id then
      some (stem ++ id)
    else
      match afterStem? stem id with
      | some rest => if v.allowed.contains rest then some id else none
      | none => none

structure Registry where
  settings : Table ValueType
  families : Table Family
  categories : Table Category
  others : Table NamedValue
  conditions : Table Vocabulary
  actions : Table Vocabulary
deriving DecidableEq, Repr

namespace Registry

def empty : Registry :=
  ⟨.empty, .empty, .empty, .empty, .empty, .empty⟩

instance : Inhabited Registry := ⟨empty⟩

/-- The registry with the entries of another one over its own. -/
def extend (r other : Registry) : Registry where
  settings := r.settings.extend other.settings
  families := r.families.extend other.families
  categories := r.categories.extend other.categories
  others := r.others.extend other.others
  conditions := r.conditions.extend other.conditions
  actions := r.actions.extend other.actions

/-- The type of a setting of this family with the given id, if it is one. -/
def Family.typeOf? (family : Family) (id : String) : Option ValueType :=
  match afterStem? family.stem id with
  | some suffix => if family.suffixes.contains suffix then some family.type else none
  | none => none

/-- The type of a setting, declared by itself or as a member of a family. -/
def settingType? (r : Registry) (id : String) : Option ValueType :=
  match r.settings.get? id with
  | some type => some type
  | none => r.families.values.findSome? fun family => Family.typeOf? family id

def family? (r : Registry) (name : String) : Option Family :=
  r.families.get? name

def category? (r : Registry) (name : String) : Option Category :=
  r.categories.get? name

def other? (r : Registry) (name : String) : Option NamedValue :=
  r.others.get? name

/-- The first named value that the runtime knows under `key`. -/
def otherTarget? (r : Registry) (key : String) : Option NamedValue :=
  r.others.values.find? fun other => other.target == key

private def vocabulary? (table : Table Vocabulary) (kind : String) : Option Vocabulary :=
  match table.get? kind with
  | some vocabulary => some vocabulary
  | none => table.values.find? fun vocabulary => vocabulary.type == kind

/-- The vocabulary of a kind of condition, by its name or by the name that the runtime knows. -/
def condition? (r : Registry) (kind : String) : Option Vocabulary :=
  vocabulary? r.conditions kind

/-- The vocabulary of a kind of action, by its name or by the name that the runtime knows. -/
def action? (r : Registry) (kind : String) : Option Vocabulary :=
  vocabulary? r.actions kind

/-- Whether expressions can refer to something by this name. -/
def isReserved (r : Registry) (name : String) : Bool :=
  r.categories.contains name || r.families.contains name || r.others.contains name

end Registry

end AutomationScript
