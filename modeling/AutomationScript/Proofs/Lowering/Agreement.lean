import AutomationScript.Proofs.Lowering.Revision
import AutomationScript.Proofs.Program.Matching

/-!
# Two runs of a step

A lowering step is run on two programs that match.  `Slack.Agree` compares the runs: both give
results that match, or both stop for the same reason at places that match.  If the slack is lenient,
the second run gets at least as far as the first.
-/

namespace AutomationScript

open List

def Failure.Matches (slack : Slack) : Failure → Failure → Prop
  | .refused reason, .refused reason' =>
    (∃ error, reason.cause = .semantic error) ∧ reason'.cause = reason.cause ∧
      slack.places reason.location reason'.location
  | .defect found, .defect found' => found' = found
  | _, _ => False

namespace Slack

variable {α β γ δ : Type} (slack : Slack)

/-- The second run gives what matches the result of the first, or both stop. -/
def Agree (post : α → β → Prop) : Lowering α → Lowering β → Prop
  | .ok a, .ok b => post a b
  | .error _, .ok _ => slack.lenient
  | .ok _, .error _ => False
  | .error failure, .error failure' => slack.lenient ∨ failure.Matches slack failure'

/-- The results are equal, or they need not be. -/
def Equal (a b : α) : Prop :=
  slack.lenient ∨ b = a

variable {slack} in
theorem Equal.map₂ {a a' : α} {b b' : β} (first : slack.Equal a a') (second : slack.Equal b b')
    (f : α → β → γ) : slack.Equal (f a b) (f a' b') := by
  rcases first with lenient | rfl
  · exact .inl lenient
  · exact second.imp_right (congrArg (f _))

/-- The revised nodes match, and both are new or neither is. -/
def Revisions (post : α → β → Prop) (r : Revised α) (r' : Revised β) : Prop :=
  post r.value r'.value ∧ slack.Equal r.fresh r'.fresh

variable {slack} {post : α → β → Prop} {x : Lowering α} {x' : Lowering β}

theorem Agree.refuse {error : SemanticError} {loc loc' : Option Location}
    (placed : slack.places loc loc') :
    slack.Agree post (AutomationScript.refuse error loc) (AutomationScript.refuse error loc') :=
  .inr ⟨⟨error, rfl⟩, rfl, placed⟩

theorem Agree.broken {defect : Defect} :
    slack.Agree post (AutomationScript.broken defect) (AutomationScript.broken defect) :=
  .inr rfl

theorem Agree.bind {next : γ → δ → Prop} {f : α → Lowering γ} {f' : β → Lowering δ}
    (agree : slack.Agree post x x')
    (then_ : ∀ a b, post a b → x = .ok a → x' = .ok b → slack.Agree next (f a) (f' b)) :
    slack.Agree next (x >>= f) (x' >>= f') := by
  cases x with
  | ok a =>
    cases x' with
    | ok b => exact then_ a b agree rfl rfl
    | error failure' => cases agree
  | error failure =>
    cases x' with
    | error failure' => exact agree
    | ok b =>
      change slack.Agree next (.error failure) (f' b)
      cases f' b with
      | ok c => exact agree
      | error _ => exact .inl agree

theorem Agree.mono {next : α → β → Prop} (agree : slack.Agree post x x')
    (weaker : ∀ a b, post a b → next a b) : slack.Agree next x x' := by
  cases x <;> cases x' <;> first | exact weaker _ _ agree | exact agree

/-- If the slack is lenient, the second run has to give a result only if the first one does. -/
theorem Agree.of_lenient {b : β} (lenient : slack.lenient) (ran : x' = .ok b)
    (holds : ∀ a, x = .ok a → post a b) : slack.Agree post x x' := by
  subst ran
  cases x with
  | ok a => exact holds a rfl
  | error failure => exact lenient

/-- If the slack is lenient, nothing is asked once the first run has stopped. -/
theorem Agree.of_stopped {failure : Failure} (lenient : slack.lenient)
    (stopped : x = .error failure) : slack.Agree post x x' := by
  subst stopped
  cases x' with
  | ok b => exact lenient
  | error failure' => exact .inl lenient

/-! ## Revisions -/

theorem Revisions.map {ε ζ : Type} {next : ε → ζ → Prop} {r : Revised α} {r' : Revised β}
    {f : α → ε} {f' : β → ζ} (revised : slack.Revisions post r r')
    (around : post r.value r'.value → next (f r.value) (f' r'.value)) :
    slack.Revisions next (r.map f) (r'.map f') :=
  ⟨around revised.1, revised.2⟩

theorem Revisions.map₂ {post : α → α → Prop} {posts : List α → List α → Prop}
    {next : List α → List α → Prop} {r r' : Revised α} {rest rest' : Revised (List α)}
    (first : slack.Revisions post r r') (others : slack.Revisions posts rest rest')
    (cons : post r.value r'.value → posts rest.value rest'.value →
      next (r.value :: rest.value) (r'.value :: rest'.value)) :
    slack.Revisions next (.map₂ List.cons r rest) (.map₂ List.cons r' rest') :=
  ⟨cons first.1 others.1, first.2.map₂ others.2 or⟩

theorem agree_reviseList {post : α → α → Prop} {revise revise' : α → Lowering (Revised α)}
    {nodes nodes' : List α}
    (each : Forall₂ (fun node node' =>
      slack.Agree (slack.Revisions post) (revise node) (revise' node')) nodes nodes') :
    slack.Agree (slack.Revisions (Forall₂ post)) (reviseList revise nodes)
      (reviseList revise' nodes') := by
  induction each with
  | nil => exact ⟨.nil, .inr rfl⟩
  | cons first _ ih =>
    refine first.bind fun r r' revised _ _ => ih.bind fun rest rest' others _ _ => ?_
    exact revised.map₂ others .cons

theorem agree_reviseOption {post : Expr → Expr → Prop}
    {revise revise' : Expr → Lowering (Revised Expr)} {before : Expr → Expr → Prop}
    {own own' : Option Expr} (related : Option.Rel before own own')
    (agree : ∀ {e e'}, before e e' → slack.Agree (slack.Revisions post) (revise e) (revise' e')) :
    slack.Agree (slack.Revisions (Option.Rel post)) (reviseOption revise own)
      (reviseOption revise' own') := by
  cases related with
  | none => exact ⟨.none, .inr rfl⟩
  | some holds => exact (agree holds).bind fun r r' revised _ _ => revised.map .some

/-! ## Statements -/

section Statements

variable {value condition block : Expr → Expr → Prop} {defines : Stmt → Stmt → Prop}

theorem matches_ofParts {target target' right right' : Revised Expr}
    {own own' : Revised (Option Expr)} {tag tag' : Tag}
    (targets : slack.Revisions (Expr.Same slack) target target')
    (values : slack.Revisions value right right')
    (conditions : slack.Revisions (Option.Rel condition) own own') (tags : tag.Matches slack tag') :
    Stmt.Matches slack value condition block defines (.ofParts target right own tag)
      (.ofParts target' right' own' tag') :=
  .assign targets.1 values.1 conditions.1
    (tags.rebuiltIf ((targets.2.map₂ values.2 or).map₂ conditions.2 or))

theorem matches_ofCondition {outer outer' : Revised Expr} {tag tag' : Tag}
    (blocks : slack.Revisions block outer outer') (tags : tag.Matches slack tag') :
    Stmt.Matches slack value condition block defines (.ofCondition outer tag)
      (.ofCondition outer' tag') :=
  .openBlock blocks.1 (tags.rebuiltIf blocks.2)

theorem agree_lowerEach {before after : Stmt → Stmt → Prop}
    {lower lower' : Stmt → Lowering (List Stmt)} {program program' : List Stmt}
    (related : Forall₂ before program program')
    (agree : ∀ {s s'}, before s s' → slack.Agree (Forall₂ after) (lower s) (lower' s')) :
    slack.Agree (Forall₂ after) (lowerEach lower program) (lowerEach lower' program') := by
  induction related with
  | nil => exact .nil
  | cons first _ ih =>
    refine (agree first).bind fun part part' parts _ _ => ih.bind fun rest rest' others _ _ => ?_
    exact rel_append parts others

end Statements

/-! ## Steps that go down to the parts of an expression -/

/-- The step goes down to the elements of lists and to the operands of operators. -/
structure Descends (step : Expr → Lowering (Revised Expr)) : Prop where
  list : ∀ values fold loc, step (.list values fold loc) = do
    let values ← reviseList step values
    return values.map (.list · fold loc)
  compound : ∀ operator args loc, step (.compound operator args loc) = do
    let args ← reviseList step args
    return args.map (.compound operator · loc)

theorem descends_revise {rule : Expr → Option (Lowering (Revised Expr))}
    (list : ∀ values fold loc, rule (.list values fold loc) = none)
    (compound : ∀ operator args loc, rule (.compound operator args loc) = none) :
    Descends (Expr.revise rule) where
  list values fold loc := by rw [Expr.revise, list, Expr.reviseAll_eq_reviseList]
  compound operator args loc := by rw [Expr.revise, compound, Expr.reviseAll_eq_reviseList]

abbrev AgreeExpr (slack : Slack) (granted : Expr → Prop) (rigid operand : Bool) :
    Lowering (Revised Expr) → Lowering (Revised Expr) → Prop :=
  slack.Agree (slack.Revisions (Expr.Fits slack granted rigid operand))

abbrev AgreeSame (slack : Slack) : Lowering (Revised Expr) → Lowering (Revised Expr) → Prop :=
  slack.Agree (slack.Revisions (Expr.Same slack))

/-- Two steps agree on all expressions, or on all but those in keys, if they do so node by node, if
the second one keeps text, and if the first one takes what is granted to what is granted. -/
structure StepsAgree (slack : Slack) (keys : Prop) (granted granted' : Expr → Prop)
    (step step' : Expr → Lowering (Revised Expr)) : Prop where
  descends : Descends step
  descends' : Descends step'
  atom : ∀ {rigid : Bool} {e e' : Expr}, (rigid = true → keys) → e.AtomsMatch slack e' →
    slack.AgreeExpr granted' rigid false (step e) (step' e')
  subscript : ∀ {rigid : Bool} {base base' : Ident} {key key' : Expr} {loc loc' : Option Location},
    base.Matches slack base' → Expr.Fits slack granted true false key key' →
    slack.places loc loc' → (keys → slack.AgreeExpr granted' true false (step key) (step' key')) →
    slack.AgreeExpr granted' rigid false (step (.subscript base key loc))
      (step' (.subscript base' key' loc'))
  written : slack.lenient → ∀ (base text : Ident) (textLoc loc : Option Location),
    base.name = evalName →
    step' (.subscript base (.ident text textLoc) loc) =
      .ok (.kept (.subscript base (.ident text textLoc) loc))
  lowered : ∀ text loc, step' (.eval text loc) = .ok (.kept (.eval text loc))
  grants : ∀ {e : Expr} {found : Revised Expr}, granted e → step e = .ok found →
    granted' found.value

namespace StepsAgree

variable {keys : Prop} {granted granted' : Expr → Prop}
  {step step' : Expr → Lowering (Revised Expr)}
  (steps : slack.StepsAgree keys granted granted' step step')

include steps

theorem text (lenient : slack.lenient) {e : Expr} (isText : e.IsText) :
    step' e = .ok (.kept e) := by
  induction isText with
  | written named => exact steps.written lenient _ _ _ _ named
  | lowered text loc => exact steps.lowered text loc
  | negated loc _ ih =>
    rw [steps.descends'.compound, reviseList, ih]
    rfl

theorem expr {rigid operand : Bool} {e e' : Expr} (reached : rigid = true → keys)
    (matched : Expr.Fits slack granted rigid operand e e') :
    slack.AgreeExpr granted' rigid operand (step e) (step' e') := by
  have lift {rigid operand : Bool} {x x' : Lowering (Revised Expr)}
      (agree : slack.AgreeExpr granted' rigid false x x') :
      slack.AgreeExpr granted' rigid operand x x' :=
    agree.mono fun _ _ revised => ⟨revised.1.asOperand, revised.2⟩
  induction matched with
  | swapped lenient swaps =>
    refine .of_lenient lenient (steps.text lenient swaps.2) fun found ran => ?_
    exact ⟨.swapped lenient ⟨steps.grants swaps.1 ran, swaps.2⟩, .inl lenient⟩
  | subscript bases keys placed ih =>
    exact lift (steps.subscript bases keys placed fun reached => ih fun _ => reached)
  | list fold length parts placed ih =>
    rw [steps.descends.list, steps.descends'.list]
    have each := forall₂_iff_zip.mpr ⟨length, fun part => ih part reached⟩
    refine (agree_reviseList each).bind fun values values' revised _ _ => ?_
    exact revised.map fun parts => .ofList parts placed
  | compound operator length parts placed ih =>
    rw [steps.descends.compound, steps.descends'.compound]
    have each := forall₂_iff_zip.mpr ⟨length, fun part => ih part reached⟩
    refine (agree_reviseList each).bind fun args args' revised _ _ => ?_
    exact revised.map fun parts => .ofCompound parts placed
  | atom atoms => exact lift (steps.atom reached atoms)

theorem root {e e' : Expr} (matched : Expr.FitsRoot slack granted e e') :
    slack.Agree (slack.Revisions (Expr.FitsRoot slack granted')) (step e) (step' e') := by
  rcases matched with matched | ⟨lenient, isText⟩
  · have agree := steps.expr (fun rigid => absurd rigid Bool.false_ne_true) matched
    exact agree.mono fun _ _ revised => ⟨.inl revised.1, revised.2⟩
  · refine .of_lenient lenient (steps.text lenient isText) fun found _ => ?_
    exact ⟨.inr ⟨lenient, isText⟩, .inl lenient⟩

end StepsAgree

theorem agree_unrevised {e e' : Expr} (same : e.Same slack e') :
    slack.AgreeSame (unrevised e) (unrevised e') :=
  ⟨same, .inr rfl⟩

theorem agree_reviseStmt {keys : Prop} {granted granted' : Expr → Prop}
    {target target' value value' : Expr → Lowering (Revised Expr)}
    (targets : ∀ {e e'}, e.Same slack e' → slack.AgreeSame (target e) (target' e'))
    (values : slack.StepsAgree keys granted granted' value value') {defines : Stmt → Stmt → Prop}
    {s s' : Stmt} (matched : s.Accords slack granted defines s') :
    slack.Agree (Forall₂ (Stmt.Accords slack granted' defines))
      (do return [← s.revise target value]) (do return [← s'.revise target' value']) := by
  suffices revised : slack.Agree (Stmt.Accords slack granted' defines)
      (s.revise target value) (s'.revise target' value') from
    revised.bind fun t t' matched _ _ => .cons matched .nil
  cases matched with
  | assign lefts rights conditions tags =>
    refine (targets lefts).bind fun left left' leftsRevised _ _ => ?_
    refine (values.root rights).bind fun right right' rightsRevised _ _ => ?_
    refine (agree_reviseOption conditions values.root).bind fun own own' ownRevised _ _ => ?_
    exact matches_ofParts leftsRevised rightsRevised ownRevised tags
  | openBlock blocks tags =>
    refine (values.root blocks).bind fun outer outer' revised _ _ => ?_
    exact matches_ofCondition revised tags
  | closeBlock tags => exact .closeBlock tags
  | trigger starts acts tags => exact .trigger starts acts tags
  | use names tags => exact .use names tags
  | defineExpr related => exact .defineExpr related
  | defineBlock related => exact .defineBlock related

end Slack

end AutomationScript
