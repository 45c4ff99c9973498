import AutomationScript.Program.Stmt

/-!
# Programs without their locations

Where a part of a script stands decides nothing but the places that errors name.
-/

namespace AutomationScript

def Ident.unlocated (word : Ident) : Ident :=
  { word with loc := none }

namespace Expr

mutual

/-- The expression, wherever it stands. -/
def unlocated : Expr → Expr
  | .string value _ => .string value none
  | .number value _ => .number value none
  | .boolean value _ => .boolean value none
  | .ident word _ => .ident word.unlocated none
  | .subscript base key _ => .subscript base.unlocated key.unlocated none
  | .list values fold _ => .list (unlocatedAll values) fold none
  | .compound operator args _ => .compound operator (unlocatedAll args) none
  | .eval text _ => .eval text none
  | .wildcard _ => .wildcard none
  | .placeholder _ => .placeholder none

def unlocatedAll : List Expr → List Expr
  | [] => []
  | e :: rest => e.unlocated :: unlocatedAll rest

end

@[simp] theorem unlocatedAll_eq_map (values : List Expr) :
    unlocatedAll values = values.map unlocated := by
  induction values with
  | nil => rfl
  | cons e rest ih => rw [unlocatedAll, ih, List.map_cons]

mutual

theorem unlocated_unlocated : (e : Expr) → e.unlocated.unlocated = e.unlocated
  | .subscript base key loc => by
      simp only [unlocated, unlocated_unlocated key]
      rfl
  | .list values fold loc => by
      simp only [unlocated, unlocatedAll_unlocatedAll values]
  | .compound operator args loc => by
      simp only [unlocated, unlocatedAll_unlocatedAll args]
  | .string _ _ | .number _ _ | .boolean _ _ | .ident _ _ | .eval _ _ | .wildcard _
  | .placeholder _ => rfl

theorem unlocatedAll_unlocatedAll :
    (values : List Expr) → unlocatedAll (unlocatedAll values) = unlocatedAll values
  | [] => rfl
  | e :: rest => by
      simp only [unlocatedAll, unlocated_unlocated e, unlocatedAll_unlocatedAll rest]

end

theorem foldl_compound_unlocated (operator : Operator) (loc : Option Location) (first : Expr)
    (rest : List Expr) :
    (rest.map unlocated).foldl
        (fun all next => Expr.compound operator [all, next] none) first.unlocated =
      (rest.foldl (fun all next => Expr.compound operator [all, next] loc) first).unlocated := by
  induction rest generalizing first with
  | nil => rfl
  | cons next rest ih =>
    rw [List.map_cons, List.foldl_cons, List.foldl_cons]
    exact ih (.compound operator [first, next] loc)

@[simp] theorem loc_unlocated (e : Expr) : e.unlocated.loc = none := by
  cases e <;> rfl

/-- Whether the expression is an empty list, or has one as its key. -/
def isVoid : Expr → Bool
  | .list [] _ _ => true
  | .subscript _ (.list [] _ _) _ => true
  | _ => false

theorem isVoid_subscript {key : Expr} (solid : key.isVoid = false) (base : Ident)
    (loc : Option Location) : (Expr.subscript base key loc).isVoid = false := by
  cases key with
  | list values _ _ =>
    cases values with
    | nil => cases solid
    | cons _ _ => rfl
  | _ => rfl

theorem isVoid_unlocated (e : Expr) : e.unlocated.isVoid = e.isVoid := by
  cases e with
  | list values fold loc => cases values <;> rfl
  | subscript base key loc =>
    cases key with
    | list values _ _ => cases values <;> rfl
    | _ => rfl
  | _ => rfl

end Expr

def TriggerArg.unlocated (arg : TriggerArg) : TriggerArg :=
  ⟨arg.kind.unlocated, arg.id.unlocated, arg.count.map Expr.unlocated, none⟩

def Tag.unlocated (tag : Tag) : Tag :=
  { tag with loc := none }

namespace Stmt

mutual

/-- The statement, wherever it stands. -/
def unlocated : Stmt → Stmt
  | .assign target value condition tag =>
    .assign target.unlocated value.unlocated (condition.map Expr.unlocated) tag.unlocated
  | .openBlock condition tag => .openBlock condition.unlocated tag.unlocated
  | .closeBlock tag => .closeBlock tag.unlocated
  | .trigger condition actions tag =>
    .trigger condition.unlocated (actions.map TriggerArg.unlocated) tag.unlocated
  | .defineExpr name body tag => .defineExpr name.unlocated body.unlocated tag.unlocated
  | .defineBlock name body tag => .defineBlock name.unlocated (unlocatedAll body) tag.unlocated
  | .use name tag => .use name.unlocated tag.unlocated

def unlocatedAll : List Stmt → List Stmt
  | [] => []
  | s :: rest => s.unlocated :: unlocatedAll rest

end

@[simp] theorem unlocatedAll_eq_map (program : List Stmt) :
    unlocatedAll program = program.map unlocated := by
  induction program with
  | nil => rfl
  | cons s rest ih => rw [unlocatedAll, ih, List.map_cons]

mutual

/-- Whether the statement, or one in its body, assigns to nothing. -/
def isVoid : Stmt → Bool
  | .assign target _ _ _ => target.isVoid
  | .defineBlock _ body _ => anyVoid body
  | _ => false

def anyVoid : List Stmt → Bool
  | [] => false
  | s :: rest => s.isVoid || anyVoid rest

end

theorem anyVoid_eq_any (program : List Stmt) : anyVoid program = program.any isVoid := by
  induction program with
  | nil => rfl
  | cons s rest ih => rw [anyVoid, ih, List.any_cons]

mutual

theorem isVoid_unlocated : (s : Stmt) → s.unlocated.isVoid = s.isVoid
  | .assign target _ _ _ => target.isVoid_unlocated
  | .defineBlock _ body _ => anyVoid_unlocated body
  | .openBlock _ _ | .closeBlock _ | .trigger _ _ _ | .defineExpr _ _ _ | .use _ _ => rfl

theorem anyVoid_unlocated : (body : List Stmt) → anyVoid (unlocatedAll body) = anyVoid body
  | [] => rfl
  | s :: rest => by rw [unlocatedAll, anyVoid, anyVoid, isVoid_unlocated s, anyVoid_unlocated rest]

end

@[simp] theorem unlocated_located (loc : Location) : (Tag.located loc).unlocated = ⟨none, none⟩ :=
  rfl

end Stmt

end AutomationScript
