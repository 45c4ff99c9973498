import AutomationScript.Command.Run

/-!
# Program

The command line on the files of the machine.
-/

namespace AutomationScript

namespace Machine

/-- The number of an error, which is reported with either sign. -/
def errorNumber (code : UInt32) : Nat :=
  min code.toNat (0 - code).toNat

/-- Why the machine refuses an operation on a file. -/
def fileError (error : IO.Error) : FileError :=
  match error with
  | .noFileOrDirectory _ _ _ => .missing
  | .alreadyExists _ _ _ => .alreadyExists
  | .inappropriateType _ code _ =>
    match errorNumber code with
    | 20 => .notDirectory
    | 21 => .isDirectory
    | _ => .other (toString error)
  | _ => .other (toString error)

/-- The outcome of an operation on a file. -/
def attempt {α : Type} (action : IO α) : IO (Except FileError α) := do
  match ← action.toBaseIO with
  | .ok value => return .ok value
  | .error error => return .error (fileError error)

def textOf (bytes : Except FileError ByteArray) : Except FileError String := do
  match String.fromUTF8? (← bytes) with
  | some text => return text
  | none => throw .notText

def readText (path : String) : IO (Except FileError String) := do
  return textOf (← attempt (IO.FS.readBinFile path))

/-- Reads standard input to its end. -/
def readInput : IO (Except FileError String) := do
  let input ← IO.getStdin
  return textOf (← attempt (IO.FS.Stream.readBinToEnd input))

instance : FileStore IO where
  readText := readText
  writeText path text := attempt (IO.FS.writeFile path text)
  makeDirectory path := attempt (IO.FS.createDir path)
  isDirectory path := do
    match ← attempt (IO.FS.realPath path) with
    | .ok place => place.isDir
    | .error _ => return false

end Machine

end AutomationScript

open AutomationScript in
/-- Runs the command line and ends with its exit code. -/
def main (arguments : List String) : IO UInt32 := do
  let report ← runArguments Machine.readInput arguments
  IO.print report.out
  IO.eprint report.err
  return report.code.toUInt32
