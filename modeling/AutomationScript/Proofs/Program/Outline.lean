import AutomationScript.Proofs.Program.Unlocated

/-!
# Outlines of programs

The outline of a statement is what it says, wherever it stands and whichever node it is.  Numbers
are compared through a function, so that different numbers may count as the same.
-/

namespace AutomationScript

theorem Ident.name_eq_of_unlocated
    {word other : Ident} (same : word.unlocated = other.unlocated) : word.name = other.name := by
  have sameName : word.unlocated.name = other.unlocated.name := by rw [same]
  exact sameName

variable (number : Number → Number)

namespace Expr

mutual

/-- What the expression says. -/
def outline : Expr → Expr
  | .string value _ => .string value none
  | .number value _ => .number (number value) none
  | .boolean value _ => .boolean value none
  | .ident word _ => .ident word.unlocated none
  | .subscript base key _ => .subscript base.unlocated key.outline none
  | .list values fold _ => .list (outlineAll values) fold none
  | .compound operator args _ => .compound operator (outlineAll args) none
  | .eval text _ => .eval text none
  | .wildcard _ => .wildcard none
  | .placeholder _ => .placeholder none

def outlineAll : List Expr → List Expr
  | [] => []
  | e :: rest => e.outline :: outlineAll rest

end

@[simp] theorem outlineAll_eq_map (values : List Expr) :
    outlineAll number values = values.map (outline number) := by
  induction values with
  | nil => rfl
  | cons e rest ih => rw [outlineAll, ih, List.map_cons]

@[simp] theorem isWildcard_outline (e : Expr) : (e.outline number).isWildcard = e.isWildcard := by
  cases e <;> rfl

@[simp] theorem isList_outline (e : Expr) : (e.outline number).isList = e.isList := by
  cases e <;> rfl

mutual

theorem hasList_outline :
    (e : Expr) → (e.outline number).hasNode true isList = e.hasNode true isList
  | .subscript base key loc => by
      rw [outline, hasNode, hasNode, hasList_outline key]
      rfl
  | .list values fold loc => by
      rw [outline, hasNode, hasNode]
      rfl
  | .compound operator args loc => by
      rw [outline, hasNode, hasNode, anyHasList_outline args]
      rfl
  | .string _ _ | .number _ _ | .boolean _ _ | .ident _ _ | .eval _ _ | .wildcard _
  | .placeholder _ => rfl

theorem anyHasList_outline :
    (values : List Expr) →
      anyHasNode true isList (outlineAll number values) = anyHasNode true isList values
  | [] => rfl
  | e :: rest => by
      rw [outlineAll, anyHasNode, anyHasNode, hasList_outline e, anyHasList_outline rest]

end

end Expr

def TriggerArg.outline (arg : TriggerArg) : TriggerArg :=
  ⟨arg.kind.unlocated, arg.id.unlocated, arg.count.map (Expr.outline number), none⟩

namespace Stmt

mutual

/-- What the statement says. -/
def outline : Stmt → Stmt
  | .assign target value condition _ =>
    .assign (target.outline number) (value.outline number)
      (condition.map (Expr.outline number)) default
  | .openBlock condition _ => .openBlock (condition.outline number) default
  | .closeBlock _ => .closeBlock default
  | .trigger condition actions _ =>
    .trigger (condition.outline number) (actions.map (TriggerArg.outline number)) default
  | .defineExpr name body _ => .defineExpr name.unlocated (body.outline number) default
  | .defineBlock name body _ => .defineBlock name.unlocated (outlineAll body) default
  | .use name _ => .use name.unlocated default

def outlineAll : List Stmt → List Stmt
  | [] => []
  | s :: rest => s.outline :: outlineAll rest

end

end Stmt

end AutomationScript
