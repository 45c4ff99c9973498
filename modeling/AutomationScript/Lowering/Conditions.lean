import AutomationScript.Lowering.EvalText
import AutomationScript.Lowering.Revision

/-!
# Lowering values and conditions

A value that is not a constant becomes text for the runtime.  A condition keeps its root operator,
so that it can be stated in the document; operands below it that are operators themselves become
text.
-/

namespace AutomationScript

namespace Conditions

/-- A defect in making text stops lowering. -/
def checked {α : Type} : Except Defect α → Lowering α
  | .ok value => .ok value
  | .error defect => broken defect

/-- A constant, or the text of any other value. -/
def lowerValue (e : Expr) : Lowering (Revised Expr) :=
  match e with
  | .eval _ _ => pure (.kept e)
  | _ =>
    if e.isConstant then
      pure (.kept e)
    else do
      let text ← checked (e.evalText false)
      return .new (.eval text e.loc)

/-- An operand of the root of a condition. -/
def lowerOperand (e : Expr) : Lowering (Revised Expr) :=
  match e with
  | .compound _ _ _ => do
    let text ← checked (e.evalText false)
    return .new (.eval text e.loc)
  | _ =>
    match e.inlineEval? with
    | some text => pure (.new (.eval text e.loc))
    | none => pure (.kept e)

/-- A condition with its root operator. -/
def lowerCondition (e : Expr) : Lowering (Revised Expr) :=
  match e with
  | .compound operator args loc => do
    let args ← reviseList lowerOperand args
    return args.map (.compound operator · loc)
  | _ =>
    match e.inlineEval? with
    | some text => pure (.new (.eval text e.loc))
    | none => pure (.kept e)

/-- Lowers the value and the condition of an assignment. -/
def lowerStmt : Stmt → Lowering (List Stmt)
  | .assign target value condition tag => do
    let value ← lowerValue value
    let condition ← reviseOption lowerCondition condition
    return [.ofParts (.kept target) value condition tag]
  | s => pure [s]

/-- Lowers all values and conditions of a program. -/
def lower : List Stmt → Lowering (List Stmt) :=
  lowerEach lowerStmt

end Conditions

end AutomationScript
