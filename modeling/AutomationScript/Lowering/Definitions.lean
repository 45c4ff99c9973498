import AutomationScript.Lowering.Revision
import AutomationScript.Registry.Basic

/-!
# Expanding definitions

A definition gives an expression or a list of statements a name.  The name of an expression stands
for it wherever it appears in a value or condition, but not inside a subscript, whose key names a
member of its base.  The name of a list of statements stands for them in a `use` statement.
Definitions may come after their uses and may refer to each other, though not in a circle.
-/

namespace AutomationScript

/-- What a name is defined as. -/
inductive Definition where
  | expr (body : Expr)
  | block (body : List Stmt)
deriving Repr, Inhabited

namespace Definition

/-- The definitions of a program by name, and its other statements. -/
structure Collected where
  definitions : Table Definition
  statements : List Stmt

/-- Enters a name into the definitions. -/
def enter (registry : Registry) (definitions : Table Definition) (name : Ident)
    (body : Definition) : Lowering (Table Definition) :=
  if definitions.contains name.name then
    refuse (.alreadyDefined name.name) name.loc
  else if registry.isReserved name.name then
    refuse (.shadowsBuiltin name.name) name.loc
  else
    .ok (definitions.insert name.name body)

/-- Separates the definitions of a program from its other statements.  A name is defined once and
is not one that the registry knows. -/
def collect (registry : Registry) (definitions : Table Definition) :
    List Stmt → Lowering Collected
  | [] => pure ⟨definitions, []⟩
  | .defineExpr name body _ :: rest => do
    collect registry (← enter registry definitions name (.expr body)) rest
  | .defineBlock name body _ :: rest => do
    collect registry (← enter registry definitions name (.block body)) rest
  | s :: rest => do
    let collected ← collect registry definitions rest
    return { collected with statements := s :: collected.statements }

/-- Expands the names of expressions in an expression.  `active` are the names whose definitions
are being expanded, and `fuel` bounds how many more can be: when it is used up, every name is
active. -/
def expandExpr (definitions : Table Definition) :
    (fuel : Nat) → (active : List String) → Expr → Lowering (Revised Expr)
  | fuel, active, e =>
    e.revise fun node =>
      match node with
      | .ident name loc =>
        match definitions.get? name.name with
        | none => none
        | some (.block _) => some (refuse (.usedAsExpression name.name) loc)
        | some (.expr body) =>
          if active.contains name.name then
            some (refuse (.circularUse name.name) name.loc)
          else
            match fuel with
            | 0 => some (refuse (.circularUse name.name) name.loc)
            | fuel + 1 => some do
              let expanded ← expandExpr definitions fuel (name.name :: active) body
              return .new expanded.value
      | .subscript base key loc => some (pure (.kept (.subscript base key loc)))
      | _ => none

/-- Expands the names in a list of statements, as `expandExpr` does in an expression. -/
def expandStmts (definitions : Table Definition) :
    (fuel : Nat) → (active : List String) → List Stmt → Lowering (List Stmt)
  | fuel, active, statements =>
    statements |> lowerEach fun s =>
      match s with
      | .use name _ =>
        match definitions.get? name.name with
        | none => refuse (.unknownDefinition name.name) name.loc
        | some (.expr _) => refuse (.usedAsStatement name.name) name.loc
        | some (.block body) =>
          if active.contains name.name then
            refuse (.circularUse name.name) name.loc
          else
            match fuel with
            | 0 => refuse (.circularUse name.name) name.loc
            | fuel + 1 => expandStmts definitions fuel (name.name :: active) body
      | .defineExpr _ _ _ | .defineBlock _ _ _ => broken .nestedDefinition
      | s => do return [← s.revise unrevised (expandExpr definitions fuel active)]

/-- Expands all definitions of a program. -/
def lower (registry : Registry) (program : List Stmt) : Lowering (List Stmt) := do
  let collected ← collect registry .empty program
  expandStmts collected.definitions collected.definitions.size [] collected.statements

end Definition

end AutomationScript
