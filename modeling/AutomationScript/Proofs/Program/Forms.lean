import AutomationScript.Lowering.Revision
import AutomationScript.Program.Names
import AutomationScript.Proofs.Number.Sign

/-!
# Forms of expressions and statements

`Expr.Written` describes expressions up to the resolution of aliases, with wildcards, lists and
placeholders as long as the steps that remove them have not run.  `Expr.Formed` describes them
afterwards: every leaf is a constant or a reference.
-/

namespace AutomationScript

open List

def Operator.arity : Operator → Nat
  | .not => 1
  | _ => 2

theorem Operator.arity_of_ne_not {operator : Operator} (notNot : operator ≠ .not) :
    operator.arity = 2 := by
  cases operator with
  | not => exact absurd rfl notNot
  | _ => rfl

namespace Expr

theorem anyHasNode_eq_any (keys : Bool) (test : Expr → Bool) (values : List Expr) :
    anyHasNode keys test values = values.any (hasNode keys test) := by
  induction values with
  | nil =>
    rfl
  | cons e rest ih =>
    rw [anyHasNode, ih, any_cons]

/-- Whether an expression has no parts. -/
def isAtom : Expr → Bool
  | .subscript _ _ _ | .list _ _ _ | .compound _ _ _ => false
  | _ => true

theorem isList_of_isAtom {e : Expr} (isAtom : e.isAtom = true) : e.isList = false := by
  cases e with
  | list values fold loc => cases isAtom
  | _ => rfl

/-- A node around a list of expressions. -/
inductive Branch : (List Expr → Expr) → Prop
  | list (fold : Option Fold) (loc : Option Location) : Branch (.list · fold loc)
  | compound (operator : Operator) (loc : Option Location) : Branch (.compound operator · loc)

mutual

/-- What holds of atoms, and of every other expression if it holds of its parts, holds of all. -/
@[elab_as_elim]
theorem induction {motive : Expr → Prop} (atom : ∀ e : Expr, e.isAtom = true → motive e)
    (subscript : ∀ base key loc, motive key → motive (.subscript base key loc))
    (branch : ∀ {build} (_ : Branch build) values, (∀ value ∈ values, motive value) →
      motive (build values)) :
    (e : Expr) → motive e
  | .subscript base key loc => subscript base key loc (induction atom subscript branch key)
  | .list values fold loc =>
    branch (.list fold loc) values (induction_all atom subscript branch values)
  | .compound operator args loc =>
    branch (.compound operator loc) args (induction_all atom subscript branch args)
  | .string value loc => atom (.string value loc) rfl
  | .number value loc => atom (.number value loc) rfl
  | .boolean value loc => atom (.boolean value loc) rfl
  | .ident word loc => atom (.ident word loc) rfl
  | .eval text loc => atom (.eval text loc) rfl
  | .wildcard loc => atom (.wildcard loc) rfl
  | .placeholder loc => atom (.placeholder loc) rfl

theorem induction_all {motive : Expr → Prop} (atom : ∀ e : Expr, e.isAtom = true → motive e)
    (subscript : ∀ base key loc, motive key → motive (.subscript base key loc))
    (branch : ∀ {build} (_ : Branch build) values, (∀ value ∈ values, motive value) →
      motive (build values)) :
    (values : List Expr) → ∀ value ∈ values, motive value
  | [] => forall_mem_nil _
  | e :: rest => forall_mem_cons.mpr
      ⟨induction atom subscript branch e, induction_all atom subscript branch rest⟩

end

theorem Branch.hasNode {build : List Expr → Expr} (isBranch : Branch build) (keys : Bool)
    (test : Expr → Bool) (values : List Expr) :
    (build values).hasNode keys test =
      (test (build values) || values.any (Expr.hasNode keys test)) := by
  cases isBranch <;> rw [Expr.hasNode, anyHasNode_eq_any]

def isListFree (e : Expr) : Bool :=
  !e.hasNode true isList

theorem not_isList_of_isListFree {e : Expr} (free : e.isListFree = true) : e.isList = false := by
  cases e with
  | list values fold loc => simp [isListFree, hasNode, isList] at free
  | _ => rfl

theorem isListFree_subscript {base : Ident} {key : Expr} {loc : Option Location} :
    (Expr.subscript base key loc).isListFree = key.isListFree := by
  simp [isListFree, hasNode, isList]

theorem isListFree_compound {operator : Operator} {args : List Expr} {loc : Option Location} :
    (Expr.compound operator args loc).isListFree = true ↔ ∀ arg ∈ args, arg.isListFree = true := by
  simp [isListFree, hasNode, isList, anyHasNode_eq_any]

theorem isListFree_of_isAtom {e : Expr} (isAtom : e.isAtom = true) : e.isListFree = true := by
  cases e with
  | subscript | list | compound => cases isAtom
  | _ => rfl

end Expr

/-- Which forms an expression can take: what a name is, and whether wildcards, lists and
placeholders can occur. -/
structure Forms where
  isName : String → Prop
  wildcards : Prop
  lists : Prop
  placeholders : Prop

namespace Expr

inductive Written (f : Forms) : Expr → Prop where
  | string (value : String) (loc : Option Location) :
      Written f (.string value loc)
  | number (value : Number) (loc : Option Location) :
      Written f (.number value loc)
  | boolean (value : Bool) (loc : Option Location) :
      Written f (.boolean value loc)
  | ident (word : Ident) (loc : Option Location) :
      f.isName word.name →
      Written f (.ident word loc)
  /-- Text in braces, which need not be a name. -/
  | raw (base text : Ident) (textLoc loc : Option Location) :
      base.name = evalName →
      Written f (.subscript base (.ident text textLoc) loc)
  | subscript (base : Ident) (key : Expr) (loc : Option Location) :
      Written f key →
      Written f (.subscript base key loc)
  | list (values : List Expr) (fold : Option Fold) (loc : Option Location) :
      f.lists →
      (∀ value ∈ values, Written f value) →
      Written f (.list values fold loc)
  | compound (operator : Operator) (args : List Expr) (loc : Option Location) :
      args.length = operator.arity →
      (∀ arg ∈ args, Written f arg) →
      Written f (.compound operator args loc)
  | wildcard (loc : Option Location) :
      f.wildcards →
      Written f (.wildcard loc)
  | placeholder (loc : Option Location) :
      f.placeholders →
      Written f (.placeholder loc)

namespace Written

theorem negation {f : Forms} {operand : Expr} (written : operand.Written f)
    (loc : Option Location) : Written f (.compound .not [operand] loc) :=
  .compound .not [operand] loc rfl (forall_mem_singleton.mpr written)

theorem binary {f : Forms} {operator : Operator} {left right : Expr} (notNot : operator ≠ .not)
    (leftWritten : left.Written f) (rightWritten : right.Written f) (loc : Option Location) :
    Written f (.compound operator [left, right] loc) := by
  refine .compound operator [left, right] loc (operator.arity_of_ne_not notNot).symm ?_
  exact forall_mem_cons.mpr ⟨leftWritten, forall_mem_singleton.mpr rightWritten⟩

theorem not_hasNode {f : Forms} {e : Expr} (written : e.Written f) (keys : Bool)
    {test : Expr → Bool} (noIdent : ∀ word loc, test (.ident word loc) = false)
    (none : ∀ e, e.Written f → test e = false) : e.hasNode keys test = false := by
  induction written with
  | raw base text textLoc loc isEval =>
    simp [hasNode, noIdent, none _ (.raw base text textLoc loc isEval)]
  | subscript base key loc keyWritten ih =>
    simp [hasNode, ih, none _ (.subscript base key loc keyWritten)]
  | list values fold loc listed valuesWritten ih =>
    rw [hasNode, none _ (.list values fold loc listed valuesWritten), anyHasNode_eq_any,
      Bool.false_or, any_eq_false]
    intro value member
    rw [ih value member]
    exact Bool.false_ne_true
  | compound operator args loc arity argsWritten ih =>
    rw [hasNode, none _ (.compound operator args loc arity argsWritten), anyHasNode_eq_any,
      Bool.false_or, any_eq_false]
    intro arg member
    rw [ih arg member]
    exact Bool.false_ne_true
  | string value loc =>
    exact none _ (.string value loc)
  | number value loc =>
    exact none _ (.number value loc)
  | boolean value loc =>
    exact none _ (.boolean value loc)
  | ident word loc named =>
    exact noIdent word loc
  | wildcard loc allowed =>
    exact none _ (.wildcard loc allowed)
  | placeholder loc allowed =>
    exact none _ (.placeholder loc allowed)

end Written

/-- A target of an assignment: a name, or a base with a key. -/
inductive Target (f : Forms) : Expr → Prop where
  | ident (word : Ident) (loc : Option Location) :
      f.isName word.name →
      Target f (.ident word loc)
  | subscript (base : Ident) (key : Expr) (loc : Option Location) :
      Written f key →
      Target f (.subscript base key loc)

theorem Target.written {f : Forms} {e : Expr} (isTarget : e.Target f) : e.Written f := by
  cases isTarget with
  | ident word loc named => exact .ident word loc named
  | subscript base key loc keyWritten => exact .subscript base key loc keyWritten

/-- An expression whose leaves are constants and the given references. -/
inductive Formed (reference : Ident → Expr → Prop) : Expr → Prop where
  | string (value : String) (loc : Option Location) :
      Formed reference (.string value loc)
  | number (value : Number) (loc : Option Location) :
      Formed reference (.number value loc)
  | boolean (value : Bool) (loc : Option Location) :
      Formed reference (.boolean value loc)
  | subscript (base : Ident) (key : Expr) (loc : Option Location) :
      reference base key →
      Formed reference (.subscript base key loc)
  | compound (operator : Operator) (args : List Expr) (loc : Option Location) :
      args.length = operator.arity →
      (∀ arg ∈ args, Formed reference arg) →
      Formed reference (.compound operator args loc)

end Expr

/-! ## Statements -/

/-- A trigger's condition or action as it is written: it has an id, and its count is missing or a
number without a sign. -/
structure TriggerArg.Written (arg : TriggerArg) : Prop where
  named : arg.id.name ≠ ""
  counted : ∀ count ∈ arg.count,
    ∃ value loc, count = Expr.number value loc ∧ value.isNegative = false

namespace Stmt

/-- A statement that neither defines nor uses a name, whose targets satisfy `target` and whose
values and conditions satisfy `value`. -/
def Fits (target value : Expr → Prop) : Stmt → Prop
  | .assign left right condition _ => target left ∧ value right ∧ ∀ e ∈ condition, value e
  | .openBlock condition _ => value condition
  | .closeBlock _ => True
  | .trigger condition actions _ => condition.Written ∧ ∀ action ∈ actions, action.Written
  | .defineExpr _ _ _ | .defineBlock _ _ _ | .use _ _ => False

/-- A statement as it is written inside a block. -/
inductive Simple (f : Forms) : Stmt → Prop where
  | use (name : Ident) (tag : Tag) :
      Simple f (.use name tag)
  | fits (s : Stmt) :
      s.Fits (Expr.Target f) (Expr.Written f) →
      Simple f s

end Stmt

end AutomationScript
