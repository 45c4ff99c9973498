/-!
# Paths

A path is a text of pieces between slashes.  Empty pieces and pieces `.` name nothing, except that
a path may start at the root or at `.`.
-/

namespace AutomationScript

namespace Path

/-- The pieces between the slashes. -/
def split : List Char → List (List Char)
  | [] => [[]]
  | c :: rest =>
    if c = '/' then
      [] :: split rest
    else
      match split rest with
      | [] => [[c]]
      | piece :: pieces => (c :: piece) :: pieces

/-- Whether a piece names nothing. -/
def isIdle (piece : List Char) : Bool :=
  piece = [] ∨ piece = ['.']

def isAbsolute (path : String) : Bool :=
  path.toList.head? = some '/'

/-- The pieces that name something. -/
def names (path : String) : List String :=
  ((split path.toList).filter fun piece => !isIdle piece).map String.ofList

/-- The steps that a walk along the path takes: the pieces that are not empty. -/
def steps (path : String) : List String :=
  ((split path.toList).filter fun piece => !piece.isEmpty).map String.ofList

/-- Whether a step leads to the same directory or to the one above. -/
def isDots (step : String) : Bool :=
  step = "." ∨ step = ".."

def endsInSlash (path : String) : Bool :=
  path.toList.getLast? = some '/'

/-- The start of a path, which is the root, `.` or nothing, and what follows it. -/
def splitStart : List Char → List Char × List Char
  | '/' :: rest => (['/'], rest)
  | ['.'] => (['.'], [])
  | '.' :: '/' :: rest => (['.'], '/' :: rest)
  | path => ([], path)

/-- Whether two paths have the same start and the same names. -/
def isSame (a b : String) : Bool :=
  (splitStart a.toList).1 = (splitStart b.toList).1 ∧ names a = names b

/-- A path, from its end, without the last piece and the slash before it. -/
def beforeLast (path : List Char) : List Char :=
  (path.dropWhile (· ≠ '/')).drop 1

theorem length_beforeLast_lt {path : List Char} (nonempty : path ≠ []) :
    (beforeLast path).length < path.length := by
  have shorter : (path.dropWhile (· ≠ '/')).length ≤ path.length :=
    (List.dropWhile_sublist _).length_le
  cases path with
  | nil => exact absurd rfl nonempty
  | cons c rest =>
    simp only [beforeLast, List.length_drop, List.length_cons] at shorter ⊢
    omega

/-- A path, from its end, without the idle pieces there. -/
def dropIdle (path : List Char) : List Char :=
  if _ : path = [] then
    []
  else if isIdle (path.takeWhile (· ≠ '/')) then
    dropIdle (beforeLast path)
  else
    path
termination_by path.length
decreasing_by exact length_beforeLast_lt (by assumption)

/-- The directory that a path lies in; the root and the empty path lie in none. -/
def parent? (path : String) : Option String :=
  let (start, body) := splitStart path.toList
  match dropIdle body.reverse with
  | [] => if start = ['.'] then some "" else none
  | last => some (String.ofList (start ++ (dropIdle (beforeLast last)).reverse))

/-- A path below a directory; an absolute path stays what it is. -/
def join (base path : String) : String :=
  if isAbsolute path ∨ base = "" then
    path
  else if base.toList.getLast? = some '/' then
    base ++ path
  else
    base ++ "/" ++ path

end Path

end AutomationScript
