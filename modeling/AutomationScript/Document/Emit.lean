import AutomationScript.Document.Basic
import AutomationScript.Lowering.EvalText
import AutomationScript.Program.Stmt

/-!
# Documents from lowered programs

A lowered program has assignments to ids and triggers with one action.  A constant without a
condition is a value; any other assignment is a rule.
-/

namespace AutomationScript

namespace Emit

/-- The comparison of a rule whose second argument is the value of the setting. -/
def valueComparison : String := "A?B"

/-- The type of text for the runtime in a rule. -/
def evalType : String := "Eval"

/-- The constant that an expression is. -/
def constant : Expr → Except Defect Constant
  | .string value _ => .ok (.string value)
  | .boolean value _ => .ok (.boolean value)
  | .number value _ => .ok (.ofNumber value)
  | e => .error (.emitConstant e.variant)

/-- A type and an argument of a rule. -/
abbrev Operand :=
  String × Constant

/-- The operand that an expression is. -/
def operand : Expr → Except Defect Operand
  | .subscript base key _ =>
    match key.name? with
    | some name => .ok (base.name, .string name)
    | none => .error .emitKey
  | .number value _ => .ok ("Number", .ofNumber value)
  | .boolean value _ => .ok ("Boolean", .boolean value)
  | .string value _ => .ok ("String", .string value)
  | .eval text _ => .ok (evalType, .string text)
  | e => .error (.emitOperand e.variant)

/-- The comparison that states an operator. -/
def comparison (operator : Operator) : Except Defect String :=
  match operator with
  | .and => .ok "AND"
  | .or => .ok "OR"
  | operator =>
    if operator.isComparison then .ok operator.symbol else .error (.emitOperator operator)

/-- A condition as a comparison of two operands.  A condition without an operator is compared with
true, and a negated one with false. -/
def shape : Expr → Except Defect (Operand × String × Operand)
  | .compound .not args _ =>
    match args with
    | [inner] => do
      return (← operand inner, Operator.eq.symbol, ("Boolean", .boolean false))
    | _ => .error .notArity
  | .compound operator args _ => do
    let cmp ← comparison operator
    match args with
    | [left, right] => do
      let left ← operand left
      let right ← operand right
      return (left, cmp, right)
    | _ => .error (.binaryArity operator)
  | e => do
    return (← operand e, Operator.eq.symbol, ("Boolean", .boolean true))

/-- Adds an assignment to a document. -/
def assignment (d : Document) (name : String) (value : Expr) (condition : Option Expr) :
    Except Defect Document :=
  match condition, value with
  | none, .eval text _ =>
    .ok (d.addRule name
      ⟨"Boolean", .boolean true, valueComparison, evalType, .string text, .null⟩)
  | none, value => do
    return d.setValue name (← constant value)
  | some condition, .eval text _ => do
    let holds ← condition.evalText false
    return d.addRule name ⟨evalType, .string holds, valueComparison, evalType, .string text, .null⟩
  | some condition, value => do
    let ((type1, arg1), cmp, (type2, arg2)) ← shape condition
    let ret ← constant value
    return d.addRule name ⟨type1, arg1, cmp, type2, arg2, ret⟩

/-- The count of a trigger's condition or action. -/
def count (arg : TriggerArg) : Except Defect Int :=
  match arg.count with
  | some (.number value _) => .ok value.toInt64
  | _ => .error .emitCount

/-- Adds a trigger to a document. -/
def trigger (d : Document) (condition action : TriggerArg) : Except Defect Document := do
  let requirementCount ← count condition
  let actionCount ← count action
  return d.addTrigger fun seq =>
    { seq, priority := seq
      requirementType := condition.kind.name
      requirementId := condition.id.name
      requirementCount
      actionType := action.kind.name
      actionId := action.id.name
      actionCount
      complete := false }

/-- Adds a statement to a document. -/
def statement (d : Document) : Stmt → Except Defect Document
  | .assign target value condition _ =>
    match target.name? with
    | some name => assignment d name value condition
    | none => .error .emitTarget
  | .trigger condition actions _ =>
    match actions with
    | [action] => trigger d condition action
    | _ => .error .emitActions
  | s => .error (.emitStatement s.variant)

/-- Adds statements to a document, in order. -/
def statements (d : Document) : List Stmt → Except Defect Document
  | [] => .ok d
  | s :: rest => do
    statements (← statement d s) rest

end Emit

/-- The document of a lowered program. -/
def emit (program : List Stmt) : Except Defect Document :=
  Emit.statements .empty program

end AutomationScript
