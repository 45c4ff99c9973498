/-!
# Operators

The operators of expressions, and the two of them that a list may fold with.
-/

namespace AutomationScript

inductive Operator where
  | not
  | and
  | or
  | eq
  | ne
  | lt
  | le
  | gt
  | ge
  | add
  | sub
  | mul
  | div
deriving DecidableEq, Repr, Inhabited

namespace Operator

/-- The operators, in the order in which they are listed. -/
def all : List Operator :=
  [.not, .and, .or, .eq, .ne, .lt, .le, .gt, .ge, .add, .sub, .mul, .div]

/-- How the operator is spelled in a script. -/
def symbol : Operator → String
  | .not => "not"
  | .and => "and"
  | .or => "or"
  | .eq => "=="
  | .ne => "!="
  | .lt => "<"
  | .le => "<="
  | .gt => ">"
  | .ge => ">="
  | .add => "+"
  | .sub => "-"
  | .mul => "*"
  | .div => "/"

/-- The operator with this spelling, if there is one. -/
def ofSymbol? (text : String) : Option Operator :=
  all.find? fun operator => operator.symbol == text

/-- Whether the result is a boolean.  A list under such an operator folds at once. -/
def producesBoolean : Operator → Bool
  | .add | .sub | .mul | .div => false
  | _ => true

def isComparison : Operator → Bool
  | .eq | .ne | .lt | .le | .gt | .ge => true
  | _ => false

end Operator

/-- How a list of booleans becomes one boolean: all of them, or at least one. -/
inductive Fold where
  | and
  | or
deriving DecidableEq, Repr, Inhabited

def Fold.operator : Fold → Operator
  | .and => .and
  | .or => .or

end AutomationScript
