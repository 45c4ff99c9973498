import AutomationScript.Lowering.Revision

/-!
# Filling in placeholders

A placeholder in the value or condition of an assignment stands for the key of the assigned
setting.  It stands for nothing in a target, in the condition of a block, or where the target has
no key that is a name.
-/

namespace AutomationScript

namespace Placeholder

/-- The name that a placeholder stands for under this target. -/
def keyOf? : Expr → Option Ident
  | .subscript _ (.ident name _) _ => some name
  | _ => none

/-- Fills in the placeholders in an expression. -/
def fill (key : Option Ident) (e : Expr) : Lowering (Revised Expr) :=
  e.revise fun node =>
    match node with
    | .placeholder loc =>
      match key with
      | some name => some (pure (.new (.ident name loc)))
      | none => some (refuse .placeholderWithoutKey loc)
    | _ => none

/-- Refuses an expression with a placeholder. -/
def reject (e : Expr) : Lowering Unit := do
  discard (fill none e)

/-- Fills in the placeholders in a statement. -/
def lowerStmt : Stmt → Lowering (List Stmt)
  | .assign target value condition tag => do
    reject target
    let key := keyOf? target
    let value ← fill key value
    let condition ← reviseOption (fill key) condition
    return [.ofParts (.kept target) value condition tag]
  | .openBlock condition tag => do
    reject condition
    return [.openBlock condition tag]
  | s => pure [s]

/-- Fills in all placeholders of a program. -/
def lower : List Stmt → Lowering (List Stmt) :=
  lowerEach lowerStmt

end Placeholder

end AutomationScript
