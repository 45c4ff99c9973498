import AutomationScript.Lowering.Revision
import AutomationScript.Registry.Basic

/-!
# Resolving aliases

A bare name in a value or condition is a named value and becomes `Other[target]`.  The keys of
categories are brought into the form that the runtime knows and are checked against the values
that the category allows.  Settings and families are left for the next step.
-/

namespace AutomationScript

namespace Alias

/-- The form of a key of `base` that the runtime knows, if the category allows it. -/
def canonicalKey? (registry : Registry) (base : String) (category : Category) (key : String) :
    Option String :=
  if base = otherName then
    match registry.other? key with
    | some other => some other.target
    | none => (registry.otherTarget? key).map fun _ => key
  else
    let canonical :=
      match category.keyAlias with
      | some keyAlias => keyAlias.apply key
      | none => key
    match category.allowed with
    | some allowed => if allowed.contains canonical then some canonical else none
    | none => some canonical

/-- Resolves the key of a subscript. -/
def resolveSubscript (registry : Registry) (base : Ident) (key : Expr) (loc : Option Location) :
    Lowering (Revised Expr) :=
  let whole := Expr.subscript base key loc
  if base.name = evalName ∨ isSettingBase base.name ∨ (registry.family? base.name).isSome then
    pure (.kept whole)
  else
    match registry.category? base.name with
    | none => refuse .unknownIdentifier base.loc
    | some category =>
      match key with
      | .ident name keyLoc =>
        match canonicalKey? registry base.name category name.name with
        | none => refuse (.invalidValue name.name category.noun) keyLoc
        | some canonical =>
          if canonical = name.name then
            pure (.kept whole)
          else
            pure (.new (.subscript base (.ident ⟨canonical, name.loc⟩ keyLoc) loc))
      | _ => refuse .identifierExpected key.loc

/-- Resolves the names and keys in a value or condition. -/
def resolve (registry : Registry) (e : Expr) : Lowering (Revised Expr) :=
  e.revise fun node =>
    match node with
    | .ident name loc =>
      match registry.other? name.name with
      | none => some (refuse (.unexpectedIdentifier name.name) loc)
      | some other =>
        let key := Expr.ident ⟨other.target, name.loc⟩ loc
        some (pure (.new (.subscript ⟨otherName, name.loc⟩ key loc)))
    | .subscript base key loc => some (resolveSubscript registry base key loc)
    | _ => none

/-- Resolves all aliases of a program. -/
def lower (registry : Registry) : List Stmt → Lowering (List Stmt) :=
  lowerEach fun s => do return [← s.revise unrevised (resolve registry)]

end Alias

end AutomationScript
