import AutomationScript.Json.Basic

/-!
# Schema of the compiler output

The shape of the output as a JSON schema, for those who write readers of it.
-/

namespace AutomationScript

namespace Schema

def ofType (name : String) : Json :=
  .ofMembers [("type", .string name)]

def text : Json :=
  ofType "string"

def truth : Json :=
  ofType "boolean"

/-- A schema that every value fits. -/
def anything : Json :=
  .boolean true

def integer : Json :=
  .ofMembers [("type", .string "integer"), ("format", .string "int64")]

def natural : Json :=
  .ofMembers
    [("type", .string "integer"), ("format", .string "uint"), ("minimum", .number "0.0")]

def named (name : String) : Json :=
  .ofMembers [("$ref", .string ("#/definitions/" ++ name))]

def nullable (name : String) : Json :=
  .ofMembers [("anyOf", .array [named name, ofType "null"])]

def listOf (item : Json) : Json :=
  .ofMembers [("type", .string "array"), ("items", item)]

def describedBy : Option String → List (String × Json)
  | none => []
  | some description => [("description", .string description)]

def tableOf (description : String) (value : Json) : Json :=
  .ofMembers
    (describedBy (some description) ++
      [("type", .string "object"), ("additionalProperties", value)])

/-- The members of the schema of a record; fields are listed by name. -/
def recordMembers (description : Option String) (required : List String)
    (fields : List (String × Json)) : List (String × Json) :=
  describedBy description ++
    [("type", .string "object"),
      ("required", .array (required.map .string)),
      ("properties", .ofMembers fields)]

/-- A record all of whose fields must be there. -/
def record (description : Option String) (fields : List (String × Json)) : Json :=
  .ofMembers (recordMembers description (fields.map Prod.fst) fields)

def diagnostic : Json :=
  .ofMembers
    (recordMembers (some "A user-facing compile error.") ["message"]
      [("location", nullable "Location"), ("message", text)])

def document : Json :=
  record
    (some ("The configuration document consumed by the automation runtime. " ++
      "Field names are part of the runtime's import format."))
    [("overrides",
        tableOf "Conditional rules per setting, in source order." (listOf (named "Override"))),
      ("settings", tableOf "Unconditional setting values; last assignment wins." anything),
      ("triggers", listOf (named "Trigger"))]

def location : Json :=
  record (some "`stop` points just past the last character of the node.")
    [("start", named "Position"), ("stop", named "Position")]

def rule : Json :=
  record
    (some ("One conditional rule: when `arg1 <cmp> arg2` holds, the setting takes `ret`. " ++
      "A `null` `ret` means the runtime evaluates `arg2` for the value."))
    [("arg1", anything), ("arg2", anything), ("cmp", text), ("ret", anything), ("type1", text),
      ("type2", text)]

def position : Json :=
  record (some "1-based line and column.") [("column", natural), ("line", natural)]

def trigger : Json :=
  record none
    [("actionCount", integer), ("actionId", text), ("actionType", text), ("complete", truth),
      ("priority", natural), ("requirementCount", integer), ("requirementId", text),
      ("requirementType", text), ("seq", natural)]

/-- The schema of the whole output. -/
def output : Json :=
  .ofMembers
    ([("$schema", .string "http://json-schema.org/draft-07/schema#"),
        ("title", .string "CompileOutput")] ++
      recordMembers
        (some ("Result of one compilation: " ++
          "either a document or the diagnostics that prevented it."))
        ["errors"]
        [("document", nullable "Document"), ("errors", listOf (named "Diagnostic"))] ++
      [("definitions",
          .ofMembers
            [("Diagnostic", diagnostic),
              ("Document", document),
              ("Location", location),
              ("Override", rule),
              ("Position", position),
              ("Trigger", trigger)])])

end Schema

end AutomationScript
