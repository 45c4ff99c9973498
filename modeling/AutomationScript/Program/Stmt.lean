import AutomationScript.Program.Expr

/-!
# Statements

A program is a list of statements.  A block with a condition is a pair of marks around the
statements it governs, so that programs stay flat.

Statements can be numbered.  A lowering step that leaves a statement alone hands on the statement
with its number; a statement that it builds keeps the number of the statement it is built from and
is marked as rebuilt.  So a numbered program shows, after any step, which statements went through
untouched.
-/

namespace AutomationScript

/-- The number of a statement, and whether this is that statement or one rebuilt from it. -/
structure Mark where
  number : Nat
  rebuilt : Bool
deriving DecidableEq, Repr, Inhabited

/-- Where a statement stands in the source, and its mark in a numbered program. -/
structure Tag where
  loc : Option Location
  mark : Option Mark
deriving DecidableEq, Repr, Inhabited

namespace Tag

/-- The tag of a statement read at this location. -/
def located (loc : Location) : Tag :=
  ⟨some loc, none⟩

/-- The tag of a statement built from the one with this tag. -/
def rebuilt (tag : Tag) : Tag :=
  { tag with mark := tag.mark.map fun mark => { mark with rebuilt := true } }

end Tag

/-- What a trigger waits for or does: a kind, an id and how often. -/
structure TriggerArg where
  kind : Ident
  id : Ident
  count : Option Expr
  loc : Option Location
deriving Repr, Inhabited

inductive Stmt where
  | assign (target value : Expr) (condition : Option Expr) (tag : Tag)
  /-- Opens a block that is governed by a condition. -/
  | openBlock (condition : Expr) (tag : Tag)
  | closeBlock (tag : Tag)
  | trigger (condition : TriggerArg) (actions : List TriggerArg) (tag : Tag)
  /-- Gives an expression a name. -/
  | defineExpr (name : Ident) (body : Expr) (tag : Tag)
  /-- Gives a list of statements a name. -/
  | defineBlock (name : Ident) (body : List Stmt) (tag : Tag)
  /-- Stands for the statements with this name. -/
  | use (name : Ident) (tag : Tag)
deriving Repr, Inhabited

namespace Stmt

def tag : Stmt → Tag
  | .assign _ _ _ tag => tag
  | .openBlock _ tag => tag
  | .closeBlock tag => tag
  | .trigger _ _ tag => tag
  | .defineExpr _ _ tag => tag
  | .defineBlock _ _ tag => tag
  | .use _ tag => tag

def withTag (new : Tag) : Stmt → Stmt
  | .assign target value condition _ => .assign target value condition new
  | .openBlock condition _ => .openBlock condition new
  | .closeBlock _ => .closeBlock new
  | .trigger condition actions _ => .trigger condition actions new
  | .defineExpr name body _ => .defineExpr name body new
  | .defineBlock name body _ => .defineBlock name body new
  | .use name _ => .use name new

def loc (s : Stmt) : Option Location :=
  s.tag.loc

def mark (s : Stmt) : Option Mark :=
  s.tag.mark

/-- The same statement under this number. -/
def numbered (number : Nat) (s : Stmt) : Stmt :=
  s.withTag { s.tag with mark := some ⟨number, false⟩ }

/-- What the statement is, as it is named in reports of defects. -/
def variant : Stmt → String
  | .assign _ _ _ _ => "SettingAssignment"
  | .openBlock _ _ => "ConditionPush"
  | .closeBlock _ => "ConditionPop"
  | .trigger _ _ _ => "Trigger"
  | .defineExpr _ _ _ | .defineBlock _ _ _ => "MacroDefinition"
  | .use _ _ => "MacroUse"

end Stmt

end AutomationScript
