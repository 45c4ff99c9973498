import AutomationScript.Json.Decode
import AutomationScript.Json.Printer
import AutomationScript.Registry.Basic

/-!
# Registries in JSON

A registry is a record of six tables, any of which may be missing.  A key alias is a record with a
tag `kind`, which may stand anywhere in it.
-/

namespace AutomationScript

open Json

namespace ValueType

def toJson (type : ValueType) : Json :=
  .string type.name

/-- A type is a name, or an object with the name and null. -/
def ofJson? : Json → Option ValueType
  | .string name => ofName? name
  | .object [(some name, .null)] => ofName? name
  | _ => none

end ValueType

namespace KeyAlias

def toJson : KeyAlias → Json
  | .lowercase => .ofMembers [("kind", .string "lowercase")]
  | .namespaced default => .ofMembers [("kind", .string "namespace"), ("default", .string default)]
  | .table entries =>
    .ofMembers [("kind", .string "table"), ("entries", encodeTable .string entries)]

/-- The field that an alias of this kind has, if it is a kind. -/
private def fieldOf? : String → Option (Option String)
  | "lowercase" => some none
  | "namespace" => some (some "default")
  | "table" => some (some "entries")
  | _ => none

private def ofField? (kind : String) (field : Option Json) : Option KeyAlias :=
  match kind with
  | "lowercase" => some .lowercase
  | "namespace" => (required decodeText field).map .namespaced
  | "table" => (required (decodeTable decodeText) field).map .table
  | _ => none

/-- Reads an alias at the given depth of a text. -/
def ofJson? (depth : Nat) : Json → Option KeyAlias
  | .object members => do
    if allMembersHeld (nestingLimit - depth) members then
      let kind ← decodeText (← (← soleValue "kind" members))
      match ← fieldOf? kind with
      | none => ofField? kind none
      | some name => ofField? kind (← soleValue name members)
    else
      none
  | .array (.string kind :: rest) => do
    if allHeld (nestingLimit - depth) rest then
      match ← fieldOf? kind, rest with
      | none, [] => ofField? kind none
      | some _, [value] => ofField? kind (some value)
      | _, _ => none
    else
      none
  | _ => none

end KeyAlias

namespace Family

def toJson (family : Family) : Json :=
  .ofMembers
    [("prefix", .string family.stem),
      ("allowed_suffixes", encodeTexts family.suffixes),
      ("value_description", .string family.noun),
      ("type", family.type.toJson)]

def ofJson? (json : Json) : Option Family := do
  match ← decodeFields ["prefix", "allowed_suffixes", "value_description", "type"] json with
  | [stem, suffixes, noun, type] =>
    return {
      stem := ← required decodeText stem
      suffixes := ← required (decodeList decodeText) suffixes
      noun := ← required decodeText noun
      type := ← required ValueType.ofJson? type }
  | _ => none

end Family

namespace Category

def toJson (category : Category) : Json :=
  .ofMembers
    [("type", .ofOption ValueType.toJson category.type),
      ("allowed_values", .ofOption encodeTexts category.allowed),
      ("value_description", .string category.noun),
      ("alias", .ofOption KeyAlias.toJson category.keyAlias)]

def ofJson? (json : Json) : Option Category := do
  match ← decodeFields ["type", "allowed_values", "value_description", "alias"] json with
  | [type, allowed, noun, keyAlias] =>
    return {
      type := ← optional none (decodeOption ValueType.ofJson?) type
      allowed := ← optional none (decodeOption (decodeList decodeText)) allowed
      noun := ← required decodeText noun
      keyAlias := ← optional none (decodeOption (KeyAlias.ofJson? 4)) keyAlias }
  | _ => none

end Category

namespace NamedValue

def toJson (value : NamedValue) : Json :=
  .ofMembers [("alias_for", .string value.target), ("type", value.type.toJson)]

def ofJson? (json : Json) : Option NamedValue := do
  match ← decodeFields ["alias_for", "type"] json with
  | [target, type] =>
    return {
      target := ← required decodeText target
      type := ← required ValueType.ofJson? type }
  | _ => none

end NamedValue

namespace Vocabulary

def toJson (vocabulary : Vocabulary) : Json :=
  .ofMembers
    [("type", .string vocabulary.type),
      ("allowed_values", encodeTexts vocabulary.allowed),
      ("value_description", .string vocabulary.noun),
      ("id_prefix", .ofOption .string vocabulary.idStem)]

def ofJson? (json : Json) : Option Vocabulary := do
  match ← decodeFields ["type", "allowed_values", "value_description", "id_prefix"] json with
  | [type, allowed, noun, idStem] =>
    return {
      type := ← required decodeText type
      allowed := ← required (decodeList decodeText) allowed
      noun := ← required decodeText noun
      idStem := ← optional none (decodeOption decodeText) idStem }
  | _ => none

end Vocabulary

namespace Registry

def toJson (r : Registry) : Json :=
  .ofMembers
    [("settings", encodeTable ValueType.toJson r.settings),
      ("prefixes", encodeTable Family.toJson r.families),
      ("expressions", encodeTable Category.toJson r.categories),
      ("other_expressions", encodeTable NamedValue.toJson r.others),
      ("trigger_conditions", encodeTable Vocabulary.toJson r.conditions),
      ("trigger_actions", encodeTable Vocabulary.toJson r.actions)]

/-- A field that holds a table, which is empty if the field is missing. -/
def tableField {α : Type} (decode : Json → Option α) : Option Json → Option (Table α) :=
  optional .empty (decodeTable decode)

def ofJson? (json : Json) : Option Registry := do
  let names :=
    ["settings", "prefixes", "expressions", "other_expressions", "trigger_conditions",
      "trigger_actions"]
  match ← decodeFields names json with
  | [settings, families, categories, others, conditions, actions] =>
    return {
      settings := ← tableField ValueType.ofJson? settings
      families := ← tableField Family.ofJson? families
      categories := ← tableField Category.ofJson? categories
      others := ← tableField NamedValue.ofJson? others
      conditions := ← tableField Vocabulary.ofJson? conditions
      actions := ← tableField Vocabulary.ofJson? actions }
  | _ => none

/-- Reads a registry from a JSON text. -/
def read? (text : String) : Option Registry := do
  ofJson? (← Json.parse? text)

end Registry

/-- Reads a key alias from a JSON text. -/
def KeyAlias.read? (text : String) : Option KeyAlias := do
  KeyAlias.ofJson? 1 (← Json.parse? text)

end AutomationScript
