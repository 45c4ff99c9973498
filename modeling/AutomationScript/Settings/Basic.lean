import AutomationScript.Number.Text

/-!
# Settings of the compiler

The settings are kept in a file.  Settings that ask for what this compiler does not know are
refused.
-/

namespace AutomationScript

/-- How much is logged. -/
inductive LogLevel where
  | error
  | warn
  | info
  | debug
  | trace
deriving DecidableEq, Repr

namespace LogLevel

/-- All levels, from the least to the most verbose. -/
def all : List LogLevel :=
  [.error, .warn, .info, .debug, .trace]

def name : LogLevel → String
  | .error => "error"
  | .warn => "warn"
  | .info => "info"
  | .debug => "debug"
  | .trace => "trace"

/-- A number in decimal digits, which may have a plus sign. -/
def number? (text : String) : Option Nat :=
  let digits := match text.toList with
    | '+' :: rest => rest
    | chars => chars
  if digits ≠ [] ∧ digits.all Char.isDigit then some (Number.ofDigits digits) else none

/-- A level is given by its name, in letters of any case, or by its number from one to five. -/
def ofText? (text : String) : Option LogLevel :=
  match number? text with
  | some n => if n = 0 then none else all[n - 1]?
  | none => all.find? fun level => level.name.toList = text.toList.map Char.toLower

end LogLevel

/-- The settings of the compiler. -/
structure Settings where
  version : Nat
  /-- A file with a registry that extends the built-in one. -/
  registry : Option String
  /-- Whether output is laid out over lines. -/
  pretty : Bool
  logLevel : Option String
deriving DecidableEq, Repr

/-- Why settings are refused. -/
inductive SettingsError where
  | newerVersion (version : Nat)
  | unknownLogLevel (level : String)
deriving DecidableEq, Repr

namespace Settings

/-- The newest version of settings that is supported. -/
def supportedVersion : Nat := 1

def default : Settings :=
  ⟨supportedVersion, none, false, none⟩

instance : Inhabited Settings := ⟨default⟩

end Settings

def SettingsError.message : SettingsError → String
  | .newerVersion version =>
    "version " ++ integerText version ++ " is newer than the supported version " ++
      integerText Settings.supportedVersion
  | .unknownLogLevel level => "unknown log level '" ++ level ++ "'"

namespace Settings

/-- Refuses settings of a newer version, and levels that there are not. -/
def validate (s : Settings) : Except SettingsError Unit :=
  if supportedVersion < s.version then
    .error (.newerVersion s.version)
  else
    match s.logLevel with
    | none => .ok ()
    | some level =>
      if (LogLevel.ofText? level).isSome then .ok () else .error (.unknownLogLevel level)

end Settings

end AutomationScript
