import AutomationScript.Lowering.Revision
import AutomationScript.Registry.Basic

/-!
# Resolving lists

A list as a key stands for several subscripts.  Under a base whose values are booleans they fold
into one boolean, all of them or one of them as the list says.  Under any other base they stay a
list, and the operator above is applied to each of them; if it gives booleans, those fold.  At the
root of a value or condition no list may be left.  An assignment to a list of settings becomes one
assignment for each of them.
-/

namespace AutomationScript

namespace Lists

/-- The type of one key of a base that is keyed by settings. -/
def settingElementType? (registry : Registry) : Expr → Option ValueType
  | .ident name _ => registry.settingType? name.name
  | .subscript base _ _ => (registry.family? base.name).map Family.type
  | _ => none

/-- The type of one key of the category of named values, given by its name or by the name that the
runtime knows. -/
def otherElementType? (registry : Registry) (e : Expr) : Option ValueType :=
  match e.name? with
  | none => none
  | some name =>
    match registry.other? name with
    | some other => some other.type
    | none => (registry.otherTarget? name).map NamedValue.type

/-- The one type of all keys of a base that is keyed by settings. -/
def sharedSettingType (registry : Registry) :
    Option ValueType → List Expr → Lowering (Option ValueType)
  | shared, [] => pure shared
  | shared, e :: rest =>
    match settingElementType? registry e with
    | none => refuse .invalidSettingElement e.loc
    | some type =>
      if shared.isSome && shared != some type then
        refuse .mixedSettingTypes e.loc
      else
        sharedSettingType registry (some type) rest

/-- The one type of all keys of the category of named values; unknown keys are left for later. -/
def sharedOtherType (registry : Registry) :
    Option ValueType → List Expr → Lowering (Option ValueType)
  | shared, [] => pure shared
  | shared, e :: rest =>
    match otherElementType? registry e with
    | none => sharedOtherType registry shared rest
    | some type =>
      if shared.isSome && shared != some type then
        refuse .mixedSettingTypes e.loc
      else
        sharedOtherType registry (some type) rest

/-- The type of the values under a base and several keys, if it has one. -/
def baseType (registry : Registry) (base : String) (keys : List Expr) :
    Lowering (Option ValueType) :=
  match (registry.category? base).bind Category.type with
  | some type => pure (some type)
  | none =>
    match registry.family? base with
    | some family => pure (some family.type)
    | none =>
      if isSettingBase base then
        sharedSettingType registry none keys
      else if base = otherName then
        sharedOtherType registry none keys
      else
        pure none

/-- Several booleans as one, from the left. -/
def foldValues (fold : Option Fold) (loc : Option Location) : List Expr → Lowering Expr
  | values =>
    match fold with
    | none => refuse .ambiguousFold loc
    | some fold =>
      match values with
      | [] => refuse .emptyFold loc
      | first :: rest =>
        pure (rest.foldl (fun all next => .compound fold.operator [all, next] loc) first)

/-- A base with a list as its key. -/
def expandSubscript (registry : Registry) (base : Ident) (keys : List Expr) (fold : Option Fold)
    (listLoc loc : Option Location) : Lowering Expr := do
  let type ← baseType registry base.name keys
  let subscripts := keys.map fun key => Expr.subscript base key key.loc
  if type = some .boolean then
    foldValues fold listLoc subscripts
  else
    return .list subscripts fold loc

/-- An operator with a list as one of its operands, the one between `before` and `after`. -/
def distribute (operator : Operator) (before : List Expr) (list : Expr) (after : List Expr)
    (loc : Option Location) : Lowering Expr :=
  match list with
  | .list elements fold listLoc =>
    let results := elements.map fun element =>
      Expr.compound operator (before ++ element :: after) element.loc
    if operator.producesBoolean then
      foldValues fold listLoc results
    else
      pure (.list results fold loc)
  | _ => broken .distributedOperand

/-- Splits operands at the first list. -/
def splitAtList : List Expr → Option (List Expr × Expr × List Expr)
  | [] => none
  | e :: rest =>
    if e.isList then
      some ([], e, rest)
    else
      (splitAtList rest).map fun (before, list, after) => (e :: before, list, after)

/-- An operator with resolved operands. -/
def applyOperator (operator : Operator) (args : Revised (List Expr)) (loc : Option Location) :
    Lowering (Revised Expr) :=
  match splitAtList args.value with
  | none => pure (args.map (.compound operator · loc))
  | some (before, list, after) =>
    match after.find? Expr.isList with
    | some second => refuse .severalFolds second.loc
    | none => do
      let result ← distribute operator before list after loc
      return .new result

mutual

/-- Resolves the lists in an expression; the result may be one list itself. -/
def resolve (registry : Registry) : Expr → Lowering (Revised Expr)
  | .subscript base key loc => do
    let key ← resolve registry key
    match key.value with
    | .list keys fold listLoc =>
      return .new (← expandSubscript registry base keys fold listLoc loc)
    | _ => return key.map (.subscript base · loc)
  | .list values fold loc => do
    let values ← resolveAll registry values
    match values.value.find? Expr.isList with
    | some nested => refuse .severalFolds nested.loc
    | none => return values.map (.list · fold loc)
  | .compound operator args loc => do
    let args ← resolveAll registry args
    applyOperator operator args loc
  | e => pure (.kept e)

/-- Resolves the lists in each of several expressions. -/
def resolveAll (registry : Registry) : List Expr → Lowering (Revised (List Expr))
  | [] => pure (.kept [])
  | e :: rest => do
    let first ← resolve registry e
    let others ← resolveAll registry rest
    return .map₂ List.cons first others

end

/-- Resolves the lists in a value or condition. -/
def resolveRoot (registry : Registry) (e : Expr) : Lowering (Revised Expr) := do
  let resolved ← resolve registry e
  if resolved.value.isList then
    refuse .listOutsideKey resolved.value.loc
  else
    return resolved

/-- One target for each element of a list of keys. -/
def unrollKeys (base : Ident) : List Expr → Lowering (List (Revised Expr))
  | [] => pure []
  | key :: rest => do
    if key.isList then
      refuse .severalFolds key.loc
    else
      let others ← unrollKeys base rest
      return .new (.subscript base key key.loc) :: others

/-- The targets that a target stands for. -/
def unroll : Expr → Lowering (List (Revised Expr))
  | .subscript base (.list keys _ _) _ => unrollKeys base keys
  | e => pure [.kept e]

/-- Resolves the lists in a statement. -/
def lowerStmt (registry : Registry) : Stmt → Lowering (List Stmt)
  | .assign target value condition tag => do
    let value ← resolveRoot registry value
    let condition ← reviseOption (resolveRoot registry) condition
    let targets ← unroll target
    return targets.map fun target => .ofParts target value condition tag
  | .openBlock condition tag => do
    let condition ← resolveRoot registry condition
    return [.ofCondition condition tag]
  | s => pure [s]

/-- Resolves all lists of a program. -/
def lower (registry : Registry) : List Stmt → Lowering (List Stmt) :=
  lowerEach (lowerStmt registry)

end Lists

end AutomationScript
