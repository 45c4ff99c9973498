import AutomationScript.Proofs.Program.Balance

/-!
# Forms through a revision

A revision by a rule takes expressions of one form to expressions of another if the rule does so
wherever it answers and the forms agree elsewhere (`Revises.becomes`).
-/

namespace AutomationScript

/-- There is no defect, and a revised node satisfies `post`. -/
abbrev Becomes {α : Type} (post : α → Prop) (step : Lowering (Revised α)) : Prop :=
  Yields (fun revised => post revised.value) step

/-- The rule takes expressions that satisfy `before` to expressions that satisfy `after`, node by
node. -/
structure Revises (rule : Expr → Option (Lowering (Revised Expr))) (before after : Expr → Prop) :
    Prop where
  answered : ∀ {e : Expr} {answer : Lowering (Revised Expr)},
    before e → rule e = some answer → Becomes after answer
  atom : ∀ {e : Expr}, before e → e.isAtom = true → rule e = none → after e
  subscript : ∀ {base : Ident} {key : Expr} {loc : Option Location},
    before (.subscript base key loc) → rule (.subscript base key loc) = none →
    (before key → Becomes after (key.revise rule)) →
    Becomes (fun key => after (.subscript base key loc)) (key.revise rule)
  branch : ∀ {build : List Expr → Expr} {values : List Expr}, Expr.Branch build →
    before (build values) → rule (build values) = none →
    (∀ value ∈ values, before value) ∧
      ∀ revised : List Expr, revised.length = values.length → (∀ value ∈ revised, after value) →
        after (build revised)

theorem Expr.revise_atom (rule : Expr → Option (Lowering (Revised Expr))) {e : Expr}
    (isAtom : e.isAtom = true) :
    e.revise rule =
      match rule e with
      | some answer => answer
      | none => pure (.kept e) := by
  cases e with
  | subscript | list | compound => cases isAtom
  | _ => rfl

theorem Expr.reviseAll_eq_reviseList (rule : Expr → Option (Lowering (Revised Expr)))
    (values : List Expr) : Expr.reviseAll rule values = reviseList (Expr.revise rule) values := by
  induction values with
  | nil => rfl
  | cons e rest ih => rw [Expr.reviseAll, reviseList, ih]

theorem Expr.Branch.revise {build : List Expr → Expr} (isBranch : Branch build)
    {rule : Expr → Option (Lowering (Revised Expr))} {values : List Expr}
    (unanswered : rule (build values) = none) :
    (build values).revise rule = (do
      let values ← reviseList (Expr.revise rule) values
      return values.map build) := by
  cases isBranch <;> simp only [Expr.revise, unanswered, Expr.reviseAll_eq_reviseList]

variable {rule : Expr → Option (Lowering (Revised Expr))}

theorem Expr.revise_answered {e : Expr} {answer : Lowering (Revised Expr)}
    (answered : rule e = some answer) : e.revise rule = answer := by
  cases e <;> simp only [Expr.revise, answered]

/-- To prove something of every revision by a rule, look at the nodes that the rule answers for and
at those that it leaves to the revision of their parts. -/
theorem Expr.revise_induction {motive : Expr → Lowering (Revised Expr) → Prop}
    (answered : ∀ e answer, rule e = some answer → motive e answer)
    (atom : ∀ e, e.isAtom = true → rule e = none → motive e (pure (.kept e)))
    (subscript : ∀ base key loc, rule (.subscript base key loc) = none →
      motive key (key.revise rule) → motive (.subscript base key loc) (do
        let key ← key.revise rule
        return key.map (.subscript base · loc)))
    (branch : ∀ {build}, Branch build → ∀ values, rule (build values) = none →
      (∀ value ∈ values, motive value (value.revise rule)) → motive (build values) (do
        let values ← reviseList (Expr.revise rule) values
        return values.map build))
    (e : Expr) : motive e (e.revise rule) := by
  induction e using Expr.induction with
  | atom e isAtom =>
    rw [Expr.revise_atom rule isAtom]
    cases answer : rule e with
    | some found => exact answered e found answer
    | none => exact atom e isAtom answer
  | subscript base key loc ih =>
    rw [Expr.revise]
    cases answer : rule (.subscript base key loc) with
    | some found => exact answered _ found answer
    | none => exact subscript base key loc answer ih
  | branch isBranch values ih =>
    cases answer : rule _ with
    | some found =>
      rw [Expr.revise_answered answer]
      exact answered _ found answer
    | none =>
      rw [isBranch.revise answer]
      exact branch isBranch values answer ih

theorem becomes_reviseList {α : Type} {post : α → Prop} {revise : α → Lowering (Revised α)}
    {nodes : List α} (becomes : ∀ node ∈ nodes, Becomes post (revise node)) :
    Becomes (fun revised => revised.length = nodes.length ∧ ∀ node ∈ revised, post node)
      (reviseList revise nodes) := by
  induction nodes with
  | nil =>
    exact Yields.of_pure ⟨rfl, List.forall_mem_nil _⟩
  | cons node rest ih =>
    obtain ⟨first, others⟩ := List.forall_mem_cons.mp becomes
    refine first.bind fun newFirst firstHolds => (ih others).bind fun newOthers othersHold => ?_
    refine Yields.of_pure ⟨?_, List.forall_mem_cons.mpr ⟨firstHolds, othersHold.2⟩⟩
    exact congrArg (· + 1) othersHold.1

namespace Revises

variable {rule : Expr → Option (Lowering (Revised Expr))} {before after : Expr → Prop}

theorem becomes (revises : Revises rule before after) (e : Expr) (holds : before e) :
    Becomes after (e.revise rule) := by
  refine Expr.revise_induction (motive := fun e step => before e → Becomes after step)
    (fun e answer answered holds => revises.answered holds answered)
    (fun e isAtom unanswered holds => revises.atom holds isAtom unanswered) ?_ ?_ e holds
  · intro base key loc unanswered ih holds
    exact (revises.subscript holds unanswered ih).bind fun _ after => after
  · intro build isBranch values unanswered ih holds
    obtain ⟨each, rebuilt⟩ := revises.branch isBranch holds unanswered
    have inside := becomes_reviseList fun value member => ih value member (each value member)
    exact inside.bind fun revised revisedHolds =>
      rebuilt revised.value revisedHolds.1 revisedHolds.2

/-- For written expressions the rule has to be looked at where it answers, at atoms and at the keys
of subscripts. -/
theorem ofWritten {f g : Forms} (lists : f.lists → g.lists)
    (answered : ∀ {e : Expr} {answer : Lowering (Revised Expr)},
      e.Written f → rule e = some answer → Becomes (Expr.Written g) answer)
    (atom : ∀ {e : Expr}, e.Written f → e.isAtom = true → rule e = none → e.Written g)
    (subscript : ∀ {base : Ident} {key : Expr} {loc : Option Location},
      Expr.Written f (.subscript base key loc) → rule (.subscript base key loc) = none →
      (key.Written f → Becomes (Expr.Written g) (key.revise rule)) →
      Becomes (fun key => Expr.Written g (.subscript base key loc)) (key.revise rule)) :
    Revises rule (Expr.Written f) (Expr.Written g) where
  answered := answered
  atom := atom
  subscript := subscript
  branch := by
    intro build values isBranch written _
    cases isBranch with
    | list fold loc =>
      cases written with
      | list _ _ _ listed each =>
        exact ⟨each, fun revised _ => .list revised fold loc (lists listed)⟩
    | compound operator loc =>
      cases written with
      | compound _ _ _ arity each =>
        refine ⟨each, fun revised sameLength => ?_⟩
        exact .compound operator revised loc (sameLength.trans arity)

end Revises

/-! ## Statements -/

theorem becomes_unrevised {post : Expr → Prop} {e : Expr} (holds : post e) :
    Becomes post (unrevised e) :=
  holds

theorem Becomes.reviseOption {before after : Expr → Prop}
    {revise : Expr → Lowering (Revised Expr)} (becomes : ∀ e, before e → Becomes after (revise e))
    {e : Option Expr} (holds : ∀ inner ∈ e, before inner) :
    Becomes (fun revised => ∀ inner ∈ revised, after inner) (reviseOption revise e) := by
  cases e with
  | none => exact Yields.of_pure nofun
  | some e =>
    refine (becomes e (holds e rfl)).bind fun revised revisedHolds => Yields.of_pure ?_
    intro inner isIt
    cases isIt
    exact revisedHolds

/-- The targets of the statement satisfy `target`, and its values and conditions `value`. -/
def Stmt.PartsSatisfy (target value : Expr → Prop) : Stmt → Prop
  | .assign left right condition _ => target left ∧ value right ∧ ∀ e ∈ condition, value e
  | .openBlock condition _ => value condition
  | _ => True

/-- The part of a lowered program that a statement becomes: statements of the next form, which do
to the block depth what the statement did. -/
def Stmt.BecomesPart (after : Stmt → Prop) (s : Stmt) (part : List Stmt) : Prop :=
  (∀ t ∈ part, after t) ∧ ∀ depth, blockDepth depth part = s.depthAfter depth

theorem Stmt.BecomesPart.singleton {after : Stmt → Prop} {s t : Stmt} (fits : after t)
    (sameDepth : ∀ depth, blockDepth depth [t] = s.depthAfter depth) : s.BecomesPart after [t] :=
  ⟨List.forall_mem_singleton.mpr fits, sameDepth⟩

/-- A step that takes every statement to a part of the next form takes a program along. -/
theorem Composed.lowerEach {before after : Stmt → Prop} {lower : Stmt → Lowering (List Stmt)}
    (step : ∀ s, before s → Yields (s.BecomesPart after) (lower s)) {program : List Stmt}
    (composed : Composed before program) : Yields (Composed after) (lowerEach lower program) := by
  have each :=
    Yields.lowerEach (fun s holds => (step s holds).mono fun _ part => part.1) composed.each
  refine (each.and_ofResult fun lowered ran => ?_).mono fun lowered ⟨fits, sameDepth⟩ =>
    ⟨sameDepth, fits⟩
  intro depth
  rw [blockDepth_lowerEach (fun s member part partRan =>
    ((step s (composed.each s member)).result partRan).2) ran depth]
  exact composed.balanced depth

section Parts

variable {targetBefore targetAfter valueBefore valueAfter : Expr → Prop}
  {target value : Expr → Lowering (Revised Expr)} {program : List Stmt} {s : Stmt}
  (targets : ∀ e, targetBefore e → Becomes targetAfter (target e))
  (values : ∀ e, valueBefore e → Becomes valueAfter (value e))

include targets values

theorem Stmt.Fits.revise (fits : s.Fits targetBefore valueBefore) :
    Yields (Stmt.Fits targetAfter valueAfter) (s.revise target value) := by
  cases s with
  | assign left right condition tag =>
    obtain ⟨leftFits, rightFits, conditionFits⟩ := fits
    refine (targets left leftFits).bind fun newLeft newLeftFits => ?_
    refine (values right rightFits).bind fun newRight newRightFits => ?_
    refine (Becomes.reviseOption values conditionFits).bind fun newCondition newFits => ?_
    exact ⟨newLeftFits, newRightFits, newFits⟩
  | openBlock condition tag =>
    exact (values condition fits).bind fun revised revisedFits => revisedFits
  | closeBlock tag => exact fits
  | trigger condition actions tag => exact fits
  | defineExpr name body tag => exact fits.elim
  | defineBlock name body tag => exact fits.elim
  | use name tag => exact fits.elim

theorem Stmt.PartsSatisfy.revise (holds : s.PartsSatisfy targetBefore valueBefore) :
    Yields (Stmt.PartsSatisfy targetAfter valueAfter) (s.revise target value) := by
  cases s with
  | assign left right condition tag =>
    obtain ⟨leftHolds, rightHolds, conditionHolds⟩ := holds
    refine (targets left leftHolds).bind fun newLeft newLeftHolds => ?_
    refine (values right rightHolds).bind fun newRight newRightHolds => ?_
    refine (Becomes.reviseOption values conditionHolds).bind fun newCondition newHolds => ?_
    exact ⟨newLeftHolds, newRightHolds, newHolds⟩
  | openBlock condition tag =>
    exact (values condition holds).bind fun revised revisedHolds => revisedHolds
  | _ =>
    exact True.intro

theorem Stmt.Fits.revisePart (fits : s.Fits targetBefore valueBefore) :
    Yields (s.BecomesPart (Stmt.Fits targetAfter valueAfter))
      (do return [← s.revise target value]) := by
  have revised := (fits.revise targets values).and_ofResult fun t ran => depthAfter_revise ran
  exact revised.bind fun t ⟨tFits, sameDepth⟩ => Stmt.BecomesPart.singleton tFits sameDepth

theorem Composed.reviseEach (composed : Composed (Stmt.Fits targetBefore valueBefore) program) :
    Yields (Composed (Stmt.Fits targetAfter valueAfter))
      (AutomationScript.lowerEach (fun s => do return [← s.revise target value]) program) :=
  composed.lowerEach fun _ fits => fits.revisePart targets values

theorem Yields.reviseParts (holds : ∀ s ∈ program, s.PartsSatisfy targetBefore valueBefore) :
    Yields (fun lowered => ∀ t ∈ lowered, t.PartsSatisfy targetAfter valueAfter)
      (AutomationScript.lowerEach (fun s => do return [← s.revise target value]) program) := by
  refine Yields.lowerEach (fun s sHolds => ?_) holds
  refine (sHolds.revise targets values).bind fun t tHolds => Yields.of_pure ?_
  exact List.forall_mem_singleton.mpr tHolds

end Parts

end AutomationScript
