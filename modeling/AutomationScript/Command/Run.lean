import AutomationScript.Command.Arguments
import AutomationScript.Document.Json
import AutomationScript.Document.Schema
import AutomationScript.Settings.Files

/-!
# Running commands

A command line runs on a file store and ends with a report: the exit code and the texts for
standard output and standard error.
-/

namespace AutomationScript

/-- How a command ended. -/
structure Report where
  code : Nat
  out : String
  err : String
deriving DecidableEq, Repr

namespace Report

/-- The exit code of a script that is refused. -/
def refusedCode : Nat := 1

/-- The exit code of a command that cannot do its work. -/
def failedCode : Nat := 2

/-- The exit code after a defect of the compiler. -/
def defectCode : Nat := 101

/-- The report of a command that only shows a text. -/
def shows (text : String) : Report :=
  ⟨0, text ++ "\n", ""⟩

def ofHostError (error : HostError) : Report :=
  ⟨failedCode, "", "Error: " ++ error.message ++ "\n"⟩

def ofDefect (defect : Defect) : Report :=
  ⟨defectCode, "", "Defect: " ++ defect.message ++ "\n"⟩

/-- The report with a text before its text for standard error. -/
def after (text : String) (report : Report) : Report :=
  { report with err := text ++ report.err }

end Report

def programName : String := "evoscript-cli"

def programVersion : String := "0.1.0"

def usageText : String :=
  "Usage: " ++ programName ++ " [--config FILE] [-v] compile | check | registry | schema\n\n" ++
    "  compile FILE [--out FILE] [--pretty] [--registry FILE]\n" ++
    "  check FILE [--registry FILE]\n" ++
    "  registry [--registry FILE]\n" ++
    "  schema"

def Stop.report : Stop → Report
  | .usage => ⟨Report.failedCode, "", usageText ++ "\n"⟩
  | .help => Report.shows usageText
  | .version => Report.shows (programName ++ " " ++ programVersion)

/-- The diagnostics of a script, a line each. -/
def diagnosticLines (file : String) (errors : List Diagnostic) : String :=
  String.join (errors.map fun error => file ++ ": " ++ error.render ++ "\n")

def Output.code (output : Output) : Nat :=
  if output.isOk then 0 else Report.refusedCode

/-- The file name that stands for standard input. -/
def inputName : String := "-"

section Running

variable {m : Type → Type} [Monad m] [FileStore m]

/-- Reads a script from a file or from standard input. -/
def readScript (input : m (Except FileError String)) (file : String) :
    m (Except HostError String) := do
  let text ← if Path.isSame file inputName then input else FileStore.readText file
  return text.mapError (.file file)

/-- The registry in force: the one of the settings, extended by the one in a file. -/
def Settings.effectiveRegistry (s : Settings) (base : String) (extra : Option String) :
    m (Except HostError Registry) := do
  match ← s.loadRegistry base with
  | .ok registry => registry.extendFrom extra
  | .error error => return .error error

/-- The registry in force and the output for a script; the inner failure is a defect. -/
def compileFile (input : m (Except FileError String)) (s : Settings) (base file : String)
    (extra : Option String) : m (Except HostError (Except Defect Output)) := do
  match ← s.effectiveRegistry base extra with
  | .error error => return .error error
  | .ok registry =>
    match ← readScript input file with
    | .error error => return .error error
    | .ok source => return .ok (compileOutput registry source)

/-- Delivers a text to a file, or to standard output if no file is given. -/
def deliver (text : String) (code : Nat) : (out : Option String) → m Report
  | none => return ⟨code, text ++ "\n", ""⟩
  | some path => do
    match ← FileStore.writeText path text with
    | .ok () => return ⟨code, "", ""⟩
    | .error error => return .ofHostError (.file path error)

/-- Runs a command. -/
def Command.run (input : m (Except FileError String)) (s : Settings) (base : String) :
    Command → m Report
  | .compile file out pretty extra => do
    match ← compileFile input s base file extra with
    | .error error => return .ofHostError error
    | .ok (.error defect) => return .ofDefect defect
    | .ok (.ok output) =>
      let text := output.toJson.render (pretty || s.pretty)
      return (← deliver text output.code out).after (diagnosticLines file output.errors)
  | .check file extra => do
    match ← compileFile input s base file extra with
    | .error error => return .ofHostError error
    | .ok (.error defect) => return .ofDefect defect
    | .ok (.ok output) =>
      let verdict := if output.isOk then file ++ ": ok\n" else ""
      return ⟨output.code, "", diagnosticLines file output.errors ++ verdict⟩
  | .registry extra => do
    match ← s.effectiveRegistry base extra with
    | .error error => return .ofHostError error
    | .ok effective => return .shows effective.toJson.indented
  | .schema => return .shows Schema.output.indented

/-- Runs a command under the settings in its file, or under the default settings if there are
none. -/
def Invocation.run (input : m (Except FileError String)) (invocation : Invocation) :
    m Report := do
  let settings := (← Settings.load invocation.config).getD default
  match settings.validate with
  | .error error => return .ofHostError (.settings error)
  | .ok () =>
    invocation.command.run input settings ((Path.parent? invocation.config).getD ".")

/-- Runs a command line. -/
def runArguments (input : m (Except FileError String)) (arguments : List String) : m Report :=
  match Invocation.read arguments with
  | .error stop => return stop.report
  | .ok invocation => invocation.run input

end Running

end AutomationScript
