import AutomationScript.Lowering.Revision
import AutomationScript.Registry.Basic

/-!
# Splitting triggers

A trigger with several actions becomes one trigger for each action.  The first keeps the
condition; each later one waits for the action before it.  Kinds and ids are brought into the form
that the runtime knows, and a missing count is one.
-/

namespace AutomationScript

namespace Chains

/-- Whether a condition is the one that waits for the action before. -/
def isChain (arg : TriggerArg) : Bool :=
  arg.kind.name == chainName && arg.id.name == "" &&
    match arg.count with
    | some (.number value _) => value.isZero
    | _ => false

/-- The condition that waits for the action before `action`. -/
def chainAfter (action : TriggerArg) : TriggerArg where
  kind := ⟨chainName, action.kind.loc⟩
  id := ⟨"", action.id.loc⟩
  count := some (.number (.ofInt 0) action.loc)
  loc := action.loc

/-- A count as it is written, or one if none is. -/
def normalizeCount (arg : TriggerArg) : Lowering Expr :=
  match arg.count with
  | none => pure (.number (.ofInt 1) arg.loc)
  | some (.number value loc) =>
    match value.toInt? with
    | none => refuse .fractionalCount loc
    | some n =>
      if n.natAbs < Nat.pow 2 63 then
        pure (.number value loc)
      else
        refuse .countOutOfRange loc
  | some _ => broken .countLiteral

/-- An argument in the form that the runtime knows. -/
def normalize (vocabulary : Vocabulary) (arg : TriggerArg) : Lowering (Revised TriggerArg) :=
  match vocabulary.canonicalId arg.id.name with
  | none => refuse (.unknownTriggerId vocabulary.noun arg.id.name) arg.id.loc
  | some id => do
    let count ← normalizeCount arg
    let kept := arg.kind.name = vocabulary.type ∧ arg.id.name = id ∧ arg.count.isSome
    if kept then
      return .kept arg
    else
      return .new ⟨⟨vocabulary.type, arg.kind.loc⟩, ⟨id, arg.id.loc⟩, some count, arg.loc⟩

/-- A condition in the form that the runtime knows. -/
def normalizeCondition (registry : Registry) (arg : TriggerArg) : Lowering (Revised TriggerArg) :=
  if isChain arg then
    pure (.kept arg)
  else
    match registry.condition? arg.kind.name with
    | none => refuse (.unknownCondition arg.kind.name) arg.kind.loc
    | some vocabulary => normalize vocabulary arg

/-- An action in the form that the runtime knows. -/
def normalizeAction (registry : Registry) (arg : TriggerArg) : Lowering (Revised TriggerArg) :=
  match registry.action? arg.kind.name with
  | none => refuse (.unknownAction arg.kind.name) arg.kind.loc
  | some vocabulary => normalize vocabulary arg

/-- The triggers of the actions after the first. -/
def later (registry : Registry) (tag : Tag) : List TriggerArg → Lowering (List Stmt)
  | [] => pure []
  | action :: rest => do
    let normalized ← normalizeAction registry action
    let others ← later registry tag rest
    return .trigger (chainAfter action) [normalized.value] tag.rebuilt :: others

/-- Splits a trigger. -/
def lowerStmt (registry : Registry) : Stmt → Lowering (List Stmt)
  | .trigger condition actions tag => do
    let condition ← normalizeCondition registry condition
    match actions with
    | [] => return []
    | action :: rest =>
      let action ← normalizeAction registry action
      let others ← later registry tag rest
      let kept := rest.isEmpty && !condition.fresh && !action.fresh
      return .trigger condition.value [action.value] (if kept then tag else tag.rebuilt) :: others
  | s => pure [s]

/-- Splits all triggers of a program. -/
def lower (registry : Registry) : List Stmt → Lowering (List Stmt) :=
  lowerEach (lowerStmt registry)

end Chains

end AutomationScript
