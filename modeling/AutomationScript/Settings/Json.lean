import AutomationScript.Json.Decode
import AutomationScript.Json.Printer
import AutomationScript.Settings.Basic

/-!
# Settings in JSON

Settings are a record of four fields; a field that is missing has its default value.
-/

namespace AutomationScript

open Json

namespace Settings

/-- Versions are below this number. -/
def versionLimit : Nat := Nat.pow 2 32

def toJson (s : Settings) : Json :=
  .ofMembers
    [("version", .ofNat s.version),
      ("registry", .ofOption .string s.registry),
      ("pretty", .boolean s.pretty),
      ("log_level", .ofOption .string s.logLevel)]

def ofJson? (json : Json) : Option Settings := do
  match ← decodeFields ["version", "registry", "pretty", "log_level"] json with
  | [version, registry, pretty, logLevel] =>
    return {
      version := ← optional default.version (decodeNat versionLimit) version
      registry := ← optional default.registry (decodeOption decodeText) registry
      pretty := ← optional default.pretty decodeBool pretty
      logLevel := ← optional default.logLevel (decodeOption decodeText) logLevel }
  | _ => none

/-- Reads settings from a JSON text. -/
def read? (text : String) : Option Settings := do
  ofJson? (← Json.parse? text)

end Settings

end AutomationScript
