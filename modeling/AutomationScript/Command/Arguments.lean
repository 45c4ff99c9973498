import AutomationScript.Table

/-!
# Command line

The arguments of a command line name a command, give its file and set options.  Options for all
commands may stand before the command as well; a value that stands after it has the last word.
Arguments are read from left to right, and the first that does not fit ends the reading.
-/

namespace AutomationScript

/-- Why a command line runs no command. -/
inductive Stop where
  | usage
  | help
  | version
deriving DecidableEq, Repr

/-- What an option is for. -/
inductive OptionKind where
  /-- Has a value and comes once. -/
  | valued
  /-- Has no value and comes once. -/
  | flag
  /-- Has no value and is counted. -/
  | counted
  | help
  | version
deriving DecidableEq, Repr

structure OptionRule where
  name : String
  letter : Option Char
  kind : OptionKind
deriving DecidableEq, Repr

/-- What has been read so far. -/
structure Arguments where
  values : Table String
  flags : List String
  count : Nat
  files : List String
  /-- The option that the next argument is the value of. -/
  pending : Option String
deriving DecidableEq, Repr

/-- What an argument looks like. -/
inductive ArgumentForm where
  /-- The mark after which nothing is an option. -/
  | divider
  | long (name : String) (value : Option String)
  | letters (letters : List Char)
  | plain
deriving DecidableEq, Repr

/-- The form of an argument.  A dash alone is no option. -/
def ArgumentForm.of (argument : String) : ArgumentForm :=
  match argument.toList with
  | ['-', '-'] => .divider
  | '-' :: '-' :: rest =>
    let name := String.ofList (rest.takeWhile (· ≠ '='))
    match rest.dropWhile (· ≠ '=') with
    | [] => .long name none
    | _ :: value => .long name (some (String.ofList value))
  | '-' :: c :: rest => .letters (c :: rest)
  | _ => .plain

namespace Arguments

def empty : Arguments :=
  ⟨.empty, [], 0, [], none⟩

/-- Sets the value of an option, which must not be empty. -/
def setValue (a : Arguments) (name value : String) : Except Stop Arguments :=
  if value = "" ∨ a.values.contains name then
    .error .usage
  else
    .ok { a with values := a.values.insert name value, pending := none }

/-- Notes an option for which no value is given. -/
def setOption (a : Arguments) (rule : OptionRule) : Except Stop Arguments :=
  match rule.kind with
  | .valued => .ok { a with pending := some rule.name }
  | .flag =>
    if rule.name ∈ a.flags then .error .usage else .ok { a with flags := rule.name :: a.flags }
  | .counted => .ok { a with count := a.count + 1 }
  | .help => .error .help
  | .version => .error .version

/-- Notes an option that is given by its name. -/
def setNamed (rules : List OptionRule) (a : Arguments) (name : String) (value : Option String) :
    Except Stop Arguments :=
  match rules.find? fun rule => rule.name = name, value with
  | none, _ => .error .usage
  | some rule, none => a.setOption rule
  | some rule, some value => if rule.kind = .valued then a.setValue name value else .error .usage

/-- Notes an option that is given by its letter. -/
def setLetter (rules : List OptionRule) (a : Arguments) (letter : Char) : Except Stop Arguments :=
  match rules.find? fun rule => rule.letter = some letter with
  | none => .error .usage
  | some rule => a.setOption rule

/-- Takes an argument that is an option or the value of one; `none` if it is neither. -/
def takeOption? (rules : List OptionRule) (a : Arguments) (argument : String) :
    Option (Except Stop Arguments) :=
  match a.pending, ArgumentForm.of argument with
  | some name, .plain => some (a.setValue name argument)
  | some _, _ => some (.error .usage)
  | none, .long name value => some (a.setNamed rules name value)
  | none, .letters letters => some (letters.foldlM (setLetter rules) a)
  | none, _ => none

/-- Reads options up to the first argument that is none; gives the arguments from there on. -/
def readOptions (rules : List OptionRule) :
    Arguments → List String → Except Stop (Arguments × List String)
  | a, [] => .ok (a, [])
  | a, argument :: rest =>
    match a.takeOption? rules argument with
    | some taken => do readOptions rules (← taken) rest
    | none => .ok (a, argument :: rest)

/-- Notes a file, of which there are at most `limit`. -/
def addFile (limit : Nat) (a : Arguments) (file : String) : Except Stop Arguments :=
  if file = "" ∨ limit ≤ a.files.length then
    .error .usage
  else
    .ok { a with files := a.files ++ [file] }

/-- Reads all arguments of a command. -/
def readAll (rules : List OptionRule) (limit : Nat) :
    Arguments → List String → Except Stop Arguments
  | a, [] => if a.pending.isSome then .error .usage else .ok a
  | a, argument :: rest =>
    match a.takeOption? rules argument with
    | some taken => do readAll rules limit (← taken) rest
    | none =>
      if ArgumentForm.of argument = .divider then
        rest.foldlM (addFile limit) a
      else do
        readAll rules limit (← a.addFile limit argument) rest

end Arguments

/-- A command. -/
inductive Command where
  /-- Compiles a script and delivers the output. -/
  | compile (file : String) (out : Option String) (pretty : Bool) (registry : Option String)
  /-- Compiles a script for its diagnostics only. -/
  | check (file : String) (registry : Option String)
  /-- Shows the registry that is in force. -/
  | registry (registry : Option String)
  /-- Shows the schema of the output. -/
  | schema
deriving DecidableEq, Repr

/-- A command with the options that are for all commands. -/
structure Invocation where
  command : Command
  config : String
  verbosity : Nat
deriving DecidableEq, Repr

namespace Invocation

/-- The file of settings that is read if none is named. -/
def defaultConfig : String := "evoscript.json"

private def sharedRules : List OptionRule :=
  [⟨"config", none, .valued⟩, ⟨"verbose", some 'v', .counted⟩, ⟨"help", some 'h', .help⟩]

private def topRules : List OptionRule :=
  ⟨"version", some 'V', .version⟩ :: sharedRules

private def registryRule : OptionRule :=
  ⟨"registry", none, .valued⟩

/-- The only file of a command. -/
private def soleFile (a : Arguments) : Except Stop String :=
  match a.files with
  | [file] => .ok file
  | _ => .error .usage

/-- What has been read as a command, and the arguments for all commands. -/
private def readCommand (name : String) (arguments : List String) :
    Except Stop (Command × Arguments) :=
  match name with
  | "compile" => do
    let rules := [⟨"out", none, .valued⟩, ⟨"pretty", none, .flag⟩, registryRule] ++ sharedRules
    let a ← Arguments.readAll rules 1 .empty arguments
    let pretty := a.flags.contains "pretty"
    return (.compile (← soleFile a) (a.values.get? "out") pretty (a.values.get? "registry"), a)
  | "check" => do
    let a ← Arguments.readAll (registryRule :: sharedRules) 1 .empty arguments
    return (.check (← soleFile a) (a.values.get? "registry"), a)
  | "registry" => do
    let a ← Arguments.readAll (registryRule :: sharedRules) 0 .empty arguments
    return (.registry (a.values.get? "registry"), a)
  | "schema" => do
    return (.schema, ← Arguments.readAll sharedRules 0 .empty arguments)
  | _ => .error .usage

private def commandNames : List String :=
  ["compile", "check", "registry", "schema", "help"]

/-- The command that a command line asks for. -/
def read (arguments : List String) : Except Stop Invocation := do
  match ← Arguments.readOptions topRules .empty arguments with
  | (_, []) => .error .usage
  | (_, ["help"]) => .error .help
  | (_, ["help", name]) => .error (if name ∈ commandNames then .help else .usage)
  | (top, name :: rest) =>
    let (command, own) ← readCommand name rest
    let config := (own.values.get? "config").or (top.values.get? "config")
    let verbosity := if own.count = 0 then top.count else own.count
    return ⟨command, config.getD defaultConfig, verbosity⟩

end Invocation

end AutomationScript
