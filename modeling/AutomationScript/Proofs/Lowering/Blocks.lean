import AutomationScript.Lowering.Blocks
import AutomationScript.Proofs.Program.Balance

/-!
# Forms after blocks are flattened

Flattening a program whose block marks come in pairs never meets a mark without its partner and
leaves assignments and triggers only.
-/

namespace AutomationScript

open List

/-- An assignment or a trigger, each with parts that go together. -/
inductive Stmt.Flat (assigned : Expr → Expr → Option Expr → Prop)
    (fired : TriggerArg → List TriggerArg → Prop) : Stmt → Prop where
  | assign (left right : Expr) (own : Option Expr) (tag : Tag) :
      assigned left right own →
      Flat assigned fired (.assign left right own tag)
  | trigger (awaited : TriggerArg) (actions : List TriggerArg) (tag : Tag) :
      fired awaited actions →
      Flat assigned fired (.trigger awaited actions tag)

def Assigned (target value condition : Expr → Prop)
    (left right : Expr) (own : Option Expr) : Prop :=
  target left ∧ value right ∧ ∀ e ∈ own, condition e

def ArgsWritten (awaited : TriggerArg) (actions : List TriggerArg) : Prop :=
  awaited.Written ∧ ∀ action ∈ actions, action.Written

namespace Blocks

variable {target value : Expr → Prop}

theorem under_holds
    (conjoined : ∀ outer inner, value outer → value inner → value (conjoin outer inner))
    {block : Expr} (blockHolds : value block) {own : Option Expr} (ownHolds : ∀ e ∈ own, value e) :
    value (under block own) := by
  cases own with
  | none => exact blockHolds
  | some inner => exact conjoined block inner blockHolds (ownHolds inner rfl)

theorem underAll_holds
    (conjoined : ∀ outer inner, value outer → value inner → value (conjoin outer inner))
    {blocks : List Expr} (blocksHold : ∀ block ∈ blocks, value block) {own : Option Expr}
    (ownHolds : ∀ e ∈ own, value e) : ∀ e ∈ underAll blocks own, value e := by
  induction blocks generalizing own with
  | nil =>
    exact ownHolds
  | cons block outer ih =>
    obtain ⟨blockHolds, outerHold⟩ := forall_mem_cons.mp blocksHold
    show ∀ e ∈ underAll outer (some (under block own)), value e
    refine ih outerHold fun e isIt => ?_
    cases isIt
    exact under_holds conjoined blockHolds ownHolds

/-- The open blocks are as many as the depth says, so every mark finds its partner. -/
theorem yields_flatten
    (conjoined : ∀ outer inner, value outer → value inner → value (conjoin outer inner))
    {blocks : List Expr} (blocksHold : ∀ block ∈ blocks, value block) {program : List Stmt}
    (closed : blockDepth blocks.length program = some 0)
    (fits : ∀ s ∈ program, s.Fits target value) :
    Yields (fun lowered => ∀ t ∈ lowered, t.Flat (Assigned target value value) ArgsWritten)
      (flatten blocks program) := by
  induction program generalizing blocks with
  | nil =>
    have none : blocks = [] := length_eq_zero_iff.mp (Option.some.inj closed)
    subst none
    exact Yields.of_pure (forall_mem_nil _)
  | cons s rest ih =>
    obtain ⟨sFits, restFits⟩ := forall_mem_cons.mp fits
    rw [blockDepth_cons] at closed
    cases s with
    | openBlock condition tag =>
      exact ih (forall_mem_cons.mpr ⟨sFits, blocksHold⟩) closed restFits
    | closeBlock tag =>
      cases blocks with
      | nil => cases closed
      | cons block outer => exact ih (forall_mem_cons.mp blocksHold).2 closed restFits
    | assign left right own tag =>
      obtain ⟨leftFits, rightFits, ownFits⟩ := sFits
      refine (ih blocksHold closed restFits).bind fun others othersFlat => ?_
      refine forall_mem_cons.mpr ⟨?_, othersFlat⟩
      split
      · exact .assign left right own tag ⟨leftFits, rightFits, ownFits⟩
      · exact .assign left right _ _
          ⟨leftFits, rightFits, underAll_holds conjoined blocksHold ownFits⟩
    | trigger awaited actions tag =>
      rw [flatten]
      split
      · refine (ih blocksHold closed restFits).bind fun others othersFlat => ?_
        exact forall_mem_cons.mpr ⟨.trigger awaited actions tag sFits, othersFlat⟩
      · exact Yields.of_refuse _ _
    | defineExpr name body tag => exact sFits.elim
    | defineBlock name body tag => exact sFits.elim
    | use name tag => exact sFits.elim

variable {reference : Ident → Expr → Prop}

theorem formed_conjoin (outer inner : Expr) (outerFormed : outer.Formed reference)
    (innerFormed : inner.Formed reference) : (conjoin outer inner).Formed reference := by
  refine .compound .and [outer, inner] _ rfl ?_
  exact forall_mem_cons.mpr ⟨outerFormed, forall_mem_singleton.mpr innerFormed⟩

theorem yields_lower {program : List Stmt}
    (composed : Composed (Stmt.Fits target (Expr.Formed reference)) program) :
    Yields (fun lowered => ∀ t ∈ lowered,
        t.Flat (Assigned target (Expr.Formed reference) (Expr.Formed reference)) ArgsWritten)
      (lower program) :=
  yields_flatten formed_conjoin (forall_mem_nil _) (composed.balanced 0) composed.each

end Blocks

end AutomationScript
