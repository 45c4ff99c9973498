import AutomationScript.Lowering.Revision
import AutomationScript.Registry.Basic

/-!
# Expanding wildcards

A wildcard as the key of a family stands for all suffixes of the family: `Family[*]` becomes
`Family[a, b, c]`, and inside a list the suffixes take the place of the wildcard.
-/

namespace AutomationScript

namespace Wildcard

/-- The suffixes of the family that a wildcard is a key of, each in the place of the wildcard. -/
def suffixes (registry : Registry) (base : Ident) (loc : Option Location) : Lowering (List Expr) :=
  match registry.family? base.name with
  | none => refuse .wildcardWithoutFamily loc
  | some family => .ok (family.suffixes.map fun suffix => .ident ⟨suffix, loc⟩ loc)

mutual

/-- Expands the wildcards in an expression. -/
def expand (registry : Registry) : Expr → Lowering (Revised Expr)
  | .subscript base key loc => do
    let key ← expandKey registry base key
    return key.map (.subscript base · loc)
  | .wildcard loc => refuse .wildcardWithoutFamily loc
  | .list values fold loc => do
    let values ← expandAll registry values
    return values.map (.list · fold loc)
  | .compound operator args loc => do
    let args ← expandAll registry args
    return args.map (.compound operator · loc)
  | e => pure (.kept e)

/-- Expands the wildcards in each of several expressions. -/
def expandAll (registry : Registry) : List Expr → Lowering (Revised (List Expr))
  | [] => pure (.kept [])
  | e :: rest => do
    let first ← expand registry e
    let others ← expandAll registry rest
    return .map₂ List.cons first others

/-- Expands the wildcards in the key of `base`. -/
def expandKey (registry : Registry) (base : Ident) : Expr → Lowering (Revised Expr)
  | .wildcard loc => do
    let values ← suffixes registry base loc
    return .new (.list values none loc)
  | .list values fold loc => do
    let values ← expandElements registry base values
    return values.map (.list · fold loc)
  | .subscript inner key loc => do
    let key ← expandKey registry inner key
    return key.map (.subscript inner · loc)
  | .compound operator args loc => do
    let args ← expandAll registry args
    return args.map (.compound operator · loc)
  | e => pure (.kept e)

/-- Expands the wildcards in the elements of a list that is the key of `base`. -/
def expandElements (registry : Registry) (base : Ident) : List Expr → Lowering (Revised (List Expr))
  | [] => pure (.kept [])
  | .wildcard loc :: rest => do
    let values ← suffixes registry base loc
    let others ← expandElements registry base rest
    return .new (values ++ others.value)
  | e :: rest => do
    let first ← expand registry e
    let others ← expandElements registry base rest
    return .map₂ List.cons first others

end

/-- Expands all wildcards of a program. -/
def lower (registry : Registry) : List Stmt → Lowering (List Stmt) :=
  lowerEach fun s => do return [← s.revise (expand registry) (expand registry)]

end Wildcard

end AutomationScript
