import AutomationScript.Lowering.Failure
import AutomationScript.Program.Stmt
import AutomationScript.Registry.Basic

/-!
# Checking types

Every value has the type of the setting it is assigned to, and every condition is a boolean.  Text
for the runtime has no known type and fits everywhere.
-/

namespace AutomationScript

/-- The type of an expression, as far as it is known. -/
inductive Ty where
  | known (type : ValueType)
  | unknown
deriving DecidableEq, Repr

def Ty.name : Ty → String
  | .known type => type.name
  | .unknown => "unknown"

/-- Whether an expression of the one type can stand where the other is expected. -/
def Ty.fits (actual expected : Ty) : Bool :=
  actual = .unknown ∨ expected = .unknown ∨ actual = expected

namespace Types

/-- Refuses the expression at `loc` if its type is not the expected one. -/
def expect (loc : Option Location) (actual expected : Ty) : Lowering Unit :=
  if actual.fits expected then
    pure ()
  else
    refuse (.typeMismatch expected.name actual.name) loc

/-- The type of a subscript with a name as its key. -/
def subscriptType (registry : Registry) (base : Ident) (key : Expr) : Lowering Ty :=
  if base.name = evalName then
    pure .unknown
  else
    match key.name? with
    | none => refuse .identifierExpected key.loc
    | some name =>
      if isSettingBase base.name then
        match registry.settingType? name with
        | some type => pure (.known type)
        | none => refuse (.invalidSetting name) key.loc
      else
        match registry.category? base.name with
        | none => refuse .unknownIdentifier base.loc
        | some category =>
          if base.name = otherName then
            match (registry.otherTarget? name).or (registry.other? name) with
            | some other => pure (.known other.type)
            | none => refuse (.invalidValue name category.noun) key.loc
          else if (category.allowed.map fun allowed => allowed.contains name).getD true then
            pure ((category.type.map Ty.known).getD .unknown)
          else
            refuse (.invalidValue name category.noun) key.loc

/-- Refuses the first operand whose type is not the expected one. -/
def expectAll (expected : Ty) : List (Expr × Ty) → Lowering Unit
  | [] => pure ()
  | (arg, type) :: rest => do
    expect arg.loc type expected
    expectAll expected rest

/-- The type of an operator's result, from the types of its operands. -/
def operatorType (operator : Operator) (typed : List (Expr × Ty)) : Lowering Ty :=
  match operator with
  | .not | .and | .or => do
    expectAll (.known .boolean) typed
    return .known .boolean
  | .eq | .ne => do
    match typed with
    | [(_, left), (right, type)] =>
      if left ≠ .unknown then
        expect right.loc type left
    | _ => pure ()
    return .known .boolean
  | .lt | .le | .gt | .ge => do
    expectAll (.known .number) typed
    return .known .boolean
  | .add | .sub | .mul | .div => do
    expectAll (.known .number) typed
    return .known .number

mutual

/-- The type of an expression. -/
def typeOf (registry : Registry) : Expr → Lowering Ty
  | .string _ _ => pure (.known .string)
  | .number _ _ => pure (.known .number)
  | .boolean _ _ => pure (.known .boolean)
  | .eval _ _ => pure .unknown
  | .subscript base key _ => subscriptType registry base key
  | .compound operator args _ => do
    let typed ← typeOfAll registry args
    operatorType operator typed
  | e => broken (.typesVariant e.variant)

/-- Several expressions with their types. -/
def typeOfAll (registry : Registry) : List Expr → Lowering (List (Expr × Ty))
  | [] => pure []
  | e :: rest => do
    let type ← typeOf registry e
    let others ← typeOfAll registry rest
    return (e, type) :: others

end

/-- Checks that a condition is a boolean. -/
def checkCondition (registry : Registry) (condition : Expr) : Lowering Unit := do
  let type ← typeOf registry condition
  expect condition.loc type (.known .boolean)

/-- Checks the types in a statement. -/
def checkStmt (registry : Registry) : Stmt → Lowering Unit
  | .assign target value condition _ =>
    match target.name? with
    | none => broken .typesTarget
    | some name =>
      match registry.settingType? name with
      | none => refuse (.invalidSetting name) target.loc
      | some declared => do
        let type ← typeOf registry value
        expect value.loc type (.known declared)
        match condition with
        | some condition => checkCondition registry condition
        | none => pure ()
  | .openBlock condition _ => checkCondition registry condition
  | .closeBlock _ | .trigger _ _ _ => pure ()
  | .defineExpr _ _ _ | .defineBlock _ _ _ | .use _ _ => broken .typesDefinition

/-- Checks the types in several statements, in order. -/
def checkAll (registry : Registry) : List Stmt → Lowering Unit
  | [] => pure ()
  | s :: rest => do
    checkStmt registry s
    checkAll registry rest

/-- Checks all types of a program, which is handed on as it is. -/
def lower (registry : Registry) (program : List Stmt) : Lowering (List Stmt) := do
  checkAll registry program
  return program

end Types

end AutomationScript
