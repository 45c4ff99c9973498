import AutomationScript.Lowering.Revision
import AutomationScript.Registry.Basic

/-!
# Resolving families

A member of a family is the setting whose id is the stem of the family followed by the key.  As a
target it becomes that id; in a value or condition it stands for the current value of the setting.
Every other setting must be one that the registry knows.
-/

namespace AutomationScript

namespace Families

/-- The id of a member of a family. -/
def memberId (registry : Registry) (base : Ident) (key : Expr) : Lowering Ident :=
  match registry.family? base.name with
  | none => refuse (.invalidFamily base.name) base.loc
  | some family =>
    match key.name? with
    | none => refuse .identifierExpected key.loc
    | some suffix =>
      if family.suffixes.contains suffix then
        pure ⟨family.stem ++ suffix, key.loc⟩
      else
        refuse (.invalidMember suffix family.noun base.name) key.loc

/-- Resolves the target of an assignment. -/
def resolveTarget (registry : Registry) : Expr → Lowering (Revised Expr)
  | .ident name loc =>
    if (registry.settingType? name.name).isSome then
      pure (.kept (.ident name loc))
    else
      refuse (.invalidSetting name.name) loc
  | .subscript base key loc => do
    let id ← memberId registry base key
    return .new (.ident id loc)
  | e => refuse .identifierExpected e.loc

/-- Resolves a subscript in a value or condition. -/
def resolveSubscript (registry : Registry) (base : Ident) (key : Expr) (loc : Option Location) :
    Lowering (Revised Expr) :=
  let whole := Expr.subscript base key loc
  if (registry.family? base.name).isSome then do
    let id ← memberId registry base key
    return .new (.subscript ⟨settingCurrent, base.loc⟩ (.ident id key.loc) loc)
  else if isSettingBase base.name then
    match key with
    | .ident name keyLoc =>
      if (registry.settingType? name.name).isSome then
        pure (.kept whole)
      else
        refuse (.invalidSetting name.name) keyLoc
    | .subscript innerBase innerKey keyLoc => do
      let id ← memberId registry innerBase innerKey
      return .new (.subscript base (.ident id keyLoc) loc)
    | _ => refuse .identifierExpected key.loc
  else if key.name?.isSome then
    pure (.kept whole)
  else
    refuse .identifierExpected key.loc

/-- Resolves the subscripts in a value or condition. -/
def resolve (registry : Registry) (e : Expr) : Lowering (Revised Expr) :=
  e.revise fun node =>
    match node with
    | .subscript base key loc => some (resolveSubscript registry base key loc)
    | _ => none

/-- Resolves all families of a program. -/
def lower (registry : Registry) : List Stmt → Lowering (List Stmt) :=
  lowerEach fun s => do return [← s.revise (resolveTarget registry) (resolve registry)]

end Families

end AutomationScript
