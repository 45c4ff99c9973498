import AutomationScript.Lowering.Failure
import AutomationScript.Program.Stmt

/-!
# Revising expressions and statements

A step revises expressions.  The result of a revision is either the very node that was revised or
a new node in its place, and a node is new exactly when it, or something below it, was replaced.
A statement is rebuilt when one of its expressions is new and is handed on otherwise.
-/

namespace AutomationScript

/-- What a revision gives: a node, and whether it is a new one. -/
structure Revised (α : Type) where
  value : α
  fresh : Bool
deriving DecidableEq, Repr

namespace Revised

variable {α β γ : Type}

/-- The node itself. -/
def kept (value : α) : Revised α :=
  ⟨value, false⟩

/-- A new node. -/
def new (value : α) : Revised α :=
  ⟨value, true⟩

/-- A node around a revised one. -/
def map (f : α → β) (r : Revised α) : Revised β :=
  ⟨f r.value, r.fresh⟩

/-- A node around two revised ones. -/
def map₂ (f : α → β → γ) (r : Revised α) (s : Revised β) : Revised γ :=
  ⟨f r.value s.value, r.fresh || s.fresh⟩

end Revised

/-- Revises the nodes of a list. -/
def reviseList {α : Type} (revise : α → Lowering (Revised α)) : List α → Lowering (Revised (List α))
  | [] => pure (.kept [])
  | a :: rest => do
    let first ← revise a
    let others ← reviseList revise rest
    return .map₂ List.cons first others

mutual

/-- Revises an expression from the root down.  `rule` answers for a node as a whole, or leaves it
to the revision of its parts. -/
def Expr.revise (rule : Expr → Option (Lowering (Revised Expr))) : Expr → Lowering (Revised Expr)
  | .subscript base key loc =>
    match rule (.subscript base key loc) with
    | some answer => answer
    | none => do
      let key ← key.revise rule
      return key.map (.subscript base · loc)
  | .list values fold loc =>
    match rule (.list values fold loc) with
    | some answer => answer
    | none => do
      let values ← Expr.reviseAll rule values
      return values.map (.list · fold loc)
  | .compound operator args loc =>
    match rule (.compound operator args loc) with
    | some answer => answer
    | none => do
      let args ← Expr.reviseAll rule args
      return args.map (.compound operator · loc)
  | e =>
    match rule e with
    | some answer => answer
    | none => pure (.kept e)

/-- Revises the expressions of a list, one after the other. -/
def Expr.reviseAll (rule : Expr → Option (Lowering (Revised Expr))) :
    List Expr → Lowering (Revised (List Expr))
  | [] => pure (.kept [])
  | e :: rest => do
    let first ← e.revise rule
    let others ← Expr.reviseAll rule rest
    return .map₂ List.cons first others

end

/-- Revises an expression that may be missing. -/
def reviseOption (revise : Expr → Lowering (Revised Expr)) :
    Option Expr → Lowering (Revised (Option Expr))
  | none => pure (.kept none)
  | some e => do
    let e ← revise e
    return e.map some

namespace Stmt

/-- The assignment with revised parts, rebuilt if one of them is new. -/
def ofParts (target value : Revised Expr) (condition : Revised (Option Expr)) (tag : Tag) : Stmt :=
  let fresh := target.fresh || value.fresh || condition.fresh
  .assign target.value value.value condition.value (if fresh then tag.rebuilt else tag)

/-- The opening of a block with a revised condition, rebuilt if that is new. -/
def ofCondition (condition : Revised Expr) (tag : Tag) : Stmt :=
  .openBlock condition.value (if condition.fresh then tag.rebuilt else tag)

/-- Revises the target of an assignment with one function, and values and conditions with
another.  Other statements are handed on. -/
def revise (target value : Expr → Lowering (Revised Expr)) : Stmt → Lowering Stmt
  | .assign left right condition tag => do
    let left ← target left
    let right ← value right
    let condition ← reviseOption value condition
    return ofParts left right condition tag
  | .openBlock condition tag => do
    let condition ← value condition
    return ofCondition condition tag
  | s => pure s

end Stmt

/-- Leaves an expression alone. -/
def unrevised (e : Expr) : Lowering (Revised Expr) :=
  pure (.kept e)

/-- Lowers statements one by one, in order; each may become any number of statements. -/
def lowerEach (lower : Stmt → Lowering (List Stmt)) : List Stmt → Lowering (List Stmt)
  | [] => pure []
  | s :: rest => do
    let first ← lower s
    let others ← lowerEach lower rest
    return first ++ others

end AutomationScript
