import AutomationScript.Files.Store
import AutomationScript.Registry.Builtin
import AutomationScript.Registry.Json
import AutomationScript.Settings.Json

/-!
# Files of settings and registries

Settings that cannot be read count as absent.  A registry that is asked for must be there.
-/

namespace AutomationScript

/-- Why the compiler cannot start its work or deliver its result. -/
inductive HostError where
  | file (path : String) (error : FileError)
  | registry (path : String)
  | settings (error : SettingsError)
deriving DecidableEq, Repr

def HostError.message : HostError → String
  | .file path error => "I/O error on " ++ path ++ ": " ++ error.message
  | .registry path => "invalid registry " ++ path ++ ": not a registry"
  | .settings error => "invalid config: " ++ error.message

variable {m : Type → Type} [Monad m] [FileStore m]

namespace Registry

/-- Reads a registry from a file. -/
def load (path : String) : m (Except HostError Registry) := do
  match ← FileStore.readText path with
  | .error error => return .error (.file path error)
  | .ok text =>
    match Registry.read? text with
    | some registry => return .ok registry
    | none => return .error (.registry path)

/-- The registry extended by the one in a file, if a file is given. -/
def extendFrom (r : Registry) : (path : Option String) → m (Except HostError Registry)
  | none => return .ok r
  | some path => return (← load path).map r.extend

end Registry

namespace Settings

/-- Reads settings from a file, if there are any. -/
def load (path : String) : m (Option Settings) := do
  match ← FileStore.readText path with
  | .error _ => return none
  | .ok text => return Settings.read? text

/-- Writes settings to a file.  The directories above it are made if they are missing. -/
def save (s : Settings) (path : String) : m (Except HostError Unit) := do
  let parent := (Path.parent? path).getD ""
  match ← FileStore.makeDirectories parent with
  | .error error => return .error (.file parent error)
  | .ok () => return (← FileStore.writeText path s.toJson.indented).mapError (.file path)

/-- The built-in registry, extended by the one that the settings name.  A relative path is taken
from the directory `base`. -/
def loadRegistry (s : Settings) (base : String) : m (Except HostError Registry) :=
  Registry.builtin.extendFrom (s.registry.map (Path.join base))

end Settings

end AutomationScript
