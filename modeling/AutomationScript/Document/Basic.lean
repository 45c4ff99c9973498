import AutomationScript.Number.Text
import AutomationScript.Table

/-!
# Documents

The document that the runtime imports: values of settings, rules that override them under
conditions, and triggers.
-/

namespace AutomationScript

/-- A constant of a document.  Integers of small magnitude are kept apart from other numbers, and
what is no finite number is null. -/
inductive Constant where
  | null
  | string (value : String)
  | boolean (value : Bool)
  | integer (value : Int)
  | decimal (negative : Bool) (significand : Nat) (exponent : Int)
deriving DecidableEq, Repr, Inhabited

def Constant.ofNumber (x : Number) : Constant :=
  match x.toSmallInt? with
  | some n => .integer n
  | none =>
    match x with
    | .finite negative significand exponent => .decimal negative significand exponent
    | _ => .null

/-- A rule: when `arg1 cmp arg2` holds, the setting takes the value `ret`.  The comparison `A?B`
says that the setting takes the value of `arg2` when `arg1` holds. -/
structure Rule where
  type1 : String
  arg1 : Constant
  cmp : String
  type2 : String
  arg2 : Constant
  ret : Constant
deriving DecidableEq, Repr

/-- A trigger: when the requirement is met, the action is taken. -/
structure Trigger where
  seq : Nat
  priority : Nat
  requirementType : String
  requirementId : String
  requirementCount : Int
  actionType : String
  actionId : String
  actionCount : Int
  complete : Bool
deriving DecidableEq, Repr

structure Document where
  /-- Values of settings without a condition; the last assignment counts. -/
  settings : Table Constant
  /-- Rules for settings, in the order of the script. -/
  overrides : Table (List Rule)
  triggers : List Trigger
deriving DecidableEq, Repr

namespace Document

def empty : Document :=
  ⟨.empty, .empty, []⟩

instance : Inhabited Document := ⟨empty⟩

/-- The document with a value for a setting. -/
def setValue (d : Document) (name : String) (value : Constant) : Document :=
  { d with settings := d.settings.insert name value }

/-- The document with one more rule for a setting. -/
def addRule (d : Document) (name : String) (rule : Rule) : Document :=
  { d with overrides := d.overrides.insert name ((d.overrides.get? name).getD [] ++ [rule]) }

/-- The document with one more trigger, which is numbered by its place. -/
def addTrigger (d : Document) (trigger : Nat → Trigger) : Document :=
  { d with triggers := d.triggers ++ [trigger d.triggers.length] }

end Document

end AutomationScript
