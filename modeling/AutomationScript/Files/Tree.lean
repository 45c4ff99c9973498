import AutomationScript.Files.Store

/-!
# File trees

A file store in memory.  An entry stands at a place: the names that lead to it from the working
directory.  The directories above the working directory are there as well.

A path is walked step by step.  Every step starts in a directory, also the steps `.` and `..`, and
only the last one may lead to nothing.
-/

namespace AutomationScript

inductive FileEntry where
  | directory
  | text (contents : String)
  /-- Bytes that are no text. -/
  | binary
deriving DecidableEq, Repr

structure FileTree where
  entries : List (List String × FileEntry)
deriving DecidableEq, Repr

namespace FileTree

def empty : FileTree :=
  ⟨[]⟩

def entryAt? (tree : FileTree) (place : List String) : Option FileEntry :=
  if place.all (· = "..") then some .directory else tree.entries.lookup place

def put (tree : FileTree) (place : List String) (entry : FileEntry) : FileTree :=
  ⟨(place, entry) :: tree.entries⟩

/-- The place above a directory. -/
def above (place : List String) : List String :=
  if place.all (· = "..") then place ++ [".."] else place.dropLast

/-- The place one step away from a directory. -/
def after (place : List String) (step : String) : List String :=
  if step = "." then
    place
  else if step = ".." then
    above place
  else
    place ++ [step]

/-- The bytes that a name may take. -/
def nameLimit : Nat := 255

/-- A path takes fewer bytes than this. -/
def pathLimit : Nat := 4096

def isLong (step : String) : Bool :=
  nameLimit < step.utf8ByteSize

/-- Goes from a place along steps.  All places on the way, the last one too, are directories. -/
def walk (tree : FileTree) (place : List String) (steps : List String) :
    Except FileError (List String) :=
  match tree.entryAt? place with
  | none => .error .missing
  | some .directory =>
    match steps with
    | [] => .ok place
    | step :: rest =>
      if isLong step then .error .longName else tree.walk (after place step) rest
  | some _ => .error .notDirectory

/-- The directory in which the last step of a path is taken, and that step.  Outside of the working
directory only the root is known. -/
def approach (tree : FileTree) (path : String) : Except FileError (List String × String) :=
  let steps := Path.steps path
  if path.toList.contains '\x00' then
    .error .brokenName
  else if path = "" then
    .error .missing
  else if pathLimit ≤ path.utf8ByteSize then
    .error .longName
  else if Path.isAbsolute path then
    if steps.all Path.isDots then .ok ([], ".") else .error .missing
  else do
    let place ← tree.walk [] steps.dropLast
    return (place, steps.getLastD ".")

/-- The entry at a path. -/
def find (tree : FileTree) (path : String) : Except FileError FileEntry := do
  let (place, last) ← tree.approach path
  if isLong last then
    .error .longName
  else
    match tree.entryAt? (after place last) with
    | none => .error .missing
    | some .directory => .ok .directory
    | some entry => if Path.endsInSlash path then .error .notDirectory else .ok entry

/-- The text at a path. -/
def read (tree : FileTree) (path : String) : Except FileError String := do
  match ← tree.find path with
  | .directory => .error .isDirectory
  | .text contents => .ok contents
  | .binary => .error .notText

/-- The tree with a file at a path.  A path whose last step is followed by a slash, or leads to
where it starts or above, can only be a directory. -/
def write (tree : FileTree) (path : String) (contents : FileEntry) : Except FileError FileTree := do
  let (place, last) ← tree.approach path
  if Path.endsInSlash path || Path.isDots last then
    .error .isDirectory
  else if isLong last then
    .error .longName
  else
    match tree.entryAt? (place ++ [last]) with
    | some .directory => .error .isDirectory
    | _ => .ok (tree.put (place ++ [last]) contents)

/-- The tree with a new directory at a path. -/
def addDirectory (tree : FileTree) (path : String) : Except FileError FileTree := do
  let (place, last) ← tree.approach path
  if Path.isDots last then
    .error .alreadyExists
  else if isLong last then
    .error .longName
  else
    match tree.entryAt? (place ++ [last]) with
    | some _ => .error .alreadyExists
    | none => .ok (tree.put (place ++ [last]) .directory)

def isDirectory (tree : FileTree) (path : String) : Bool :=
  match tree.find path with
  | .ok .directory => true
  | _ => false

/-- Goes on with the new tree if there is one. -/
def change (result : FileTree → Except FileError FileTree) :
    StateM FileTree (Except FileError Unit) := do
  match result (← get) with
  | .ok tree =>
    set tree
    return .ok ()
  | .error error => return .error error

instance : FileStore (StateM FileTree) where
  readText path := do return (← get).read path
  writeText path text := change fun tree => tree.write path (.text text)
  makeDirectory path := change fun tree => tree.addDirectory path
  isDirectory path := do return (← get).isDirectory path

end FileTree

end AutomationScript
