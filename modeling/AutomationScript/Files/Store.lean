import AutomationScript.Files.Path

/-!
# File stores

What the compiler needs of the place where files are kept.  The compiler is written for any such
place, so that it runs on a file tree in memory as well as on the files of the machine.
-/

namespace AutomationScript

/-- Why a file cannot be read or written. -/
inductive FileError where
  | missing
  | notDirectory
  | isDirectory
  | alreadyExists
  | notText
  /-- A name in the path is too long, or the whole path is. -/
  | longName
  /-- The path has a character that ends names. -/
  | brokenName
  | other (text : String)
deriving DecidableEq, Repr

def FileError.message : FileError → String
  | .missing => "No such file or directory (os error 2)"
  | .notDirectory => "Not a directory (os error 20)"
  | .isDirectory => "Is a directory (os error 21)"
  | .alreadyExists => "File exists (os error 17)"
  | .notText => "stream did not contain valid UTF-8"
  | .longName => "File name too long (os error 36)"
  | .brokenName => "file name contained an unexpected NUL byte"
  | .other text => text

/-- A place where files are kept. -/
class FileStore (m : Type → Type) where
  readText : (path : String) → m (Except FileError String)
  writeText : (path text : String) → m (Except FileError Unit)
  /-- Makes a directory in one that is there. -/
  makeDirectory : (path : String) → m (Except FileError Unit)
  isDirectory : (path : String) → m Bool

namespace FileStore

variable {m : Type → Type} [Monad m] [FileStore m]

/-- Makes a directory in one that is there; that the directory is there already is no failure. -/
def ensureDirectory (path : String) : m (Except FileError Unit) := do
  match ← makeDirectory path with
  | .ok () => return .ok ()
  | .error error => return if ← isDirectory path then .ok () else .error error

/-- Makes a directory and all directories above it that are missing.  A path has no more
directories above it than characters. -/
def ensureDirectories : (fuel : Nat) → (path : String) → m (Except FileError Unit)
  | 0, _ => return .ok ()
  | fuel + 1, path => do
    if path = "" then
      return .ok ()
    match ← ensureDirectory path with
    | .error .missing =>
      match Path.parent? path with
      | none => return .error .missing
      | some parent =>
        match ← ensureDirectories fuel parent with
        | .ok () => ensureDirectory path
        | .error error => return .error error
    | result => return result

/-- Makes a directory and all directories above it that are missing. -/
def makeDirectories (path : String) : m (Except FileError Unit) :=
  ensureDirectories (path.length + 1) path

end FileStore

end AutomationScript
