import AutomationScript.Diagnostic
import AutomationScript.Document.Basic
import AutomationScript.Json.Decode
import AutomationScript.Json.Printer
import AutomationScript.Pipeline.Compile

/-!
# Compiler output in JSON

The output of the compiler is a document or null, and the diagnostics that prevented it.
-/

namespace AutomationScript

namespace Json

def ofInt (n : Int) : Json :=
  .number (integerText n)

end Json

def Constant.toJson : Constant → Json
  | .null => .null
  | .string value => .string value
  | .boolean value => .boolean value
  | .integer value => .ofInt value
  | .decimal negative significand exponent =>
    .number (Number.documentText negative significand exponent)

def Rule.toJson (rule : Rule) : Json :=
  .ofMembers
    [("type1", .string rule.type1),
      ("arg1", rule.arg1.toJson),
      ("cmp", .string rule.cmp),
      ("type2", .string rule.type2),
      ("arg2", rule.arg2.toJson),
      ("ret", rule.ret.toJson)]

def Trigger.toJson (trigger : Trigger) : Json :=
  .ofMembers
    [("seq", .ofNat trigger.seq),
      ("priority", .ofNat trigger.priority),
      ("requirementType", .string trigger.requirementType),
      ("requirementId", .string trigger.requirementId),
      ("requirementCount", .ofInt trigger.requirementCount),
      ("actionType", .string trigger.actionType),
      ("actionId", .string trigger.actionId),
      ("actionCount", .ofInt trigger.actionCount),
      ("complete", .boolean trigger.complete)]

def Document.toJson (document : Document) : Json :=
  .ofMembers
    [("settings", Json.encodeTable Constant.toJson document.settings),
      ("overrides", Json.encodeTable (fun rules => .array (rules.map Rule.toJson)) document.overrides),
      ("triggers", .array (document.triggers.map Trigger.toJson))]

def Position.toJson (position : Position) : Json :=
  .ofMembers [("line", .ofNat position.line), ("column", .ofNat position.column)]

def Location.toJson (location : Location) : Json :=
  .ofMembers [("start", location.start.toJson), ("stop", location.stop.toJson)]

def Diagnostic.toJson (diagnostic : Diagnostic) : Json :=
  .ofMembers
    [("message", .string diagnostic.message),
      ("location", .ofOption Location.toJson diagnostic.location)]

/-- What the compiler gives for a script: a document, or the reasons why there is none. -/
structure Output where
  document : Option Document
  errors : List Diagnostic
deriving Repr

namespace Output

def ofDocument (document : Document) : Output :=
  ⟨some document, []⟩

def ofErrors (errors : List Diagnostic) : Output :=
  ⟨none, errors⟩

def isOk (output : Output) : Bool :=
  output.errors.isEmpty

def toJson (output : Output) : Json :=
  .ofMembers
    [("document", .ofOption Document.toJson output.document),
      ("errors", .array (output.errors.map Diagnostic.toJson))]

end Output

/-- The output of the compiler for a script. -/
def compileOutput (registry : Registry) (source : String) : Except Defect Output :=
  match compile registry source with
  | .ok document => .ok (.ofDocument document)
  | .error (.refused errors) => .ok (.ofErrors errors)
  | .error (.defect defect) => .error defect

end AutomationScript
