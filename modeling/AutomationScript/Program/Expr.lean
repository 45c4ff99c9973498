import AutomationScript.Number.Text
import AutomationScript.Operator
import AutomationScript.Text.Location

/-!
# Expressions

The expressions of a script.  Every node knows the stretch of source it stems from; a node that a
lowering step makes takes over the location of the node it is made from, and a node of unknown
origin has none.
-/

namespace AutomationScript

/-- A name and where it stands. -/
structure Ident where
  name : String
  loc : Option Location
deriving DecidableEq, Repr, Inhabited

inductive Expr where
  | string (value : String) (loc : Option Location)
  | number (value : Number) (loc : Option Location)
  | boolean (value : Bool) (loc : Option Location)
  | ident (word : Ident) (loc : Option Location)
  /-- `base[key]`, a member of a family or category. -/
  | subscript (base : Ident) (key : Expr) (loc : Option Location)
  /-- Several expressions in one place, and how they fold into one if that is said. -/
  | list (values : List Expr) (fold : Option Fold) (loc : Option Location)
  | compound (operator : Operator) (args : List Expr) (loc : Option Location)
  /-- Text that the runtime evaluates. -/
  | eval (text : String) (loc : Option Location)
  /-- Every member of a family. -/
  | wildcard (loc : Option Location)
  /-- The key of the setting that is assigned. -/
  | placeholder (loc : Option Location)
deriving Repr, Inhabited

namespace Expr

def loc : Expr → Option Location
  | .string _ loc => loc
  | .number _ loc => loc
  | .boolean _ loc => loc
  | .ident _ loc => loc
  | .subscript _ _ loc => loc
  | .list _ _ loc => loc
  | .compound _ _ loc => loc
  | .eval _ loc => loc
  | .wildcard loc => loc
  | .placeholder loc => loc

def isConstant : Expr → Bool
  | .string _ _ | .number _ _ | .boolean _ _ => true
  | _ => false

def isList : Expr → Bool
  | .list _ _ _ => true
  | _ => false

def isWildcard : Expr → Bool
  | .wildcard _ => true
  | _ => false

/-- The name, if the expression is nothing but a name. -/
def name? : Expr → Option String
  | .ident word _ => some word.name
  | _ => none

/-- What the expression is, in a word. -/
def variant : Expr → String
  | .string _ _ => "string"
  | .number _ _ => "number"
  | .boolean _ _ => "boolean"
  | .ident _ _ => "identifier"
  | .subscript _ _ _ => "subscript"
  | .list _ _ _ => "list"
  | .compound _ _ _ => "compound expression"
  | .eval _ _ => "eval"
  | .wildcard _ => "wildcard"
  | .placeholder _ => "placeholder"

mutual

/-- Whether some node of the expression satisfies `test`; keys of subscripts count if `keys`. -/
def hasNode (keys : Bool) (test : Expr → Bool) : Expr → Bool
  | .subscript base key loc =>
    test (.subscript base key loc) || (keys && key.hasNode keys test)
  | .list values fold loc => test (.list values fold loc) || anyHasNode keys test values
  | .compound operator args loc => test (.compound operator args loc) || anyHasNode keys test args
  | e => test e

/-- Whether some node of one of the expressions satisfies `test`. -/
def anyHasNode (keys : Bool) (test : Expr → Bool) : List Expr → Bool
  | [] => false
  | e :: rest => e.hasNode keys test || anyHasNode keys test rest

end

end Expr

end AutomationScript
