import AutomationScript.Pipeline.Compile
import AutomationScript.Proofs.Lowering.MatchedLists
import AutomationScript.Proofs.Lowering.MatchedResolutions
import AutomationScript.Proofs.Pipeline.Forms

/-!
# Lowering two programs

Each lowering step takes programs that match to programs that match.  What the programs have to
have in common depends on the step (`Stage.Matched`).
-/

namespace AutomationScript

open List Slack

variable {slack : Slack}
variable {program program' : List Stmt}

/-! ## What is left of what a step removes -/

namespace Slack

/-- The flag is only set in the second program if it is set in the first. -/
def Flags (slack : Slack) (flag flag' : Bool) : Prop :=
  (flag' = true → flag = true) ∧ slack.Equal flag flag'

theorem Flags.of_eq {flag flag' : Bool} (same : flag' = flag) : slack.Flags flag flag' :=
  ⟨fun set => same ▸ set, .inr same⟩

theorem Flags.or {a a' b b' : Bool} (first : slack.Flags a a') (second : slack.Flags b b') :
    slack.Flags (a || b) (a' || b') := by
  refine ⟨fun set => ?_, ?_⟩
  · rw [Bool.or_eq_true] at set ⊢
    exact set.imp first.1 second.1
  · exact first.2.map₂ second.2 (· || ·)

theorem Flags.and (keys : Bool) {a a' : Bool} (flags : slack.Flags a a') :
    slack.Flags (keys && a) (keys && a') := by
  cases keys with
  | false => exact .of_eq rfl
  | true => exact flags

theorem Flags.any {α : Type} {test : α → Bool} {values values' : List α}
    (each : Forall₂ (fun value value' => slack.Flags (test value) (test value')) values values') :
    slack.Flags (values.any test) (values'.any test) := by
  induction each with
  | nil => exact .of_eq rfl
  | cons first _ ih => exact first.or ih

end Slack

/-- A test of nodes that tells the kinds of atoms and lists apart, and that no text passes. -/
structure Expr.NodeTest (keys : Bool) (test : Expr → Bool) : Prop where
  atom : ∀ {slack : Slack} {e e' : Expr}, e.AtomsMatch slack e' → test e' = test e := by
    rintro _ _ _ (_ | _ | _ | _ | _ | _ | _) <;> rfl
  list : ∀ values fold loc values' loc',
    test (.list values' fold loc') = test (.list values fold loc) := by intros; rfl
  subscript : ∀ base key loc, test (.subscript base key loc) = false := by intros; rfl
  compound : ∀ operator args loc, test (.compound operator args loc) = false := by intros; rfl
  eval : ∀ text loc, test (.eval text loc) = false := by intros; rfl
  ident : keys = true → ∀ word loc, test (.ident word loc) = false := by intros; rfl

namespace Expr.NodeTest

variable {keys : Bool} {test : Expr → Bool} (isTest : NodeTest keys test) {granted : Expr → Prop}

include isTest

variable {e : Expr}

theorem hasNode_text (isText : e.IsText) : e.hasNode keys test = false := by
  induction isText with
  | @written base text textLoc loc _ =>
    rw [hasNode, isTest.subscript, Bool.false_or]
    cases inKeys : keys with
    | false => rfl
    | true => exact isTest.ident inKeys text textLoc
  | lowered text loc => exact isTest.eval text loc
  | negated loc _ ih =>
    rw [hasNode, isTest.compound, anyHasNode, ih]
    rfl

theorem hasNode_fits {rigid operand : Bool} {e' : Expr}
    (fits : Fits slack granted rigid operand e e') :
    slack.Flags (e.hasNode keys test) (e'.hasNode keys test) := by
  induction fits with
  | swapped lenient swaps =>
    rw [isTest.hasNode_text swaps.2]
    exact ⟨fun impossible => absurd impossible Bool.false_ne_true, .inl lenient⟩
  | atom atoms =>
    have same := isTest.atom atoms
    cases atoms <;> exact .of_eq same
  | subscript _ _ _ ih =>
    rw [hasNode, hasNode, isTest.subscript, isTest.subscript]
    exact ih.and keys
  | list fold length _ _ ih =>
    rw [hasNode, hasNode, anyHasNode_eq_any, anyHasNode_eq_any]
    exact (Flags.of_eq (isTest.list _ fold _ _ _)).or
      (.any (forall₂_iff_zip.mpr ⟨length, ih⟩))
  | compound _ length _ _ ih =>
    rw [hasNode, hasNode, isTest.compound, isTest.compound, anyHasNode_eq_any, anyHasNode_eq_any]
    exact .any (forall₂_iff_zip.mpr ⟨length, ih⟩)

theorem hasNode_fitsRoot {e' : Expr} (fits : FitsRoot slack granted e e') :
    slack.Flags (e.hasNode keys test) (e'.hasNode keys test) := by
  rcases fits with fits | ⟨lenient, isText⟩
  · exact isTest.hasNode_fits fits
  · rw [isTest.hasNode_text isText]
    exact ⟨fun impossible => absurd impossible Bool.false_ne_true, .inl lenient⟩

end Expr.NodeTest

theorem Stmt.hasNode_accords {targets keys : Bool} {test : Expr → Bool}
    (isTest : Expr.NodeTest keys test) (isTest' : targets = true → Expr.NodeTest true test)
    {granted : Expr → Prop} {defines : Stmt → Stmt → Prop} {s s' : Stmt}
    (matched : s.Accords slack granted defines s') :
    slack.Flags (s.hasNode targets keys test) (s'.hasNode targets keys test) := by
  cases matched with
  | assign lefts rights conditions _ =>
    refine .or (.or ?_ (isTest.hasNode_fitsRoot rights)) ?_
    · cases inTargets : targets with
      | false => exact .of_eq rfl
      | true =>
        have fits : Expr.Fits slack granted true false _ _ := lefts.matches
        exact (isTest' inTargets).hasNode_fits fits
    · cases conditions with
      | none => exact .of_eq rfl
      | some conditions => exact isTest.hasNode_fitsRoot conditions
  | openBlock blocks _ => exact isTest.hasNode_fitsRoot blocks
  | _ => exact .of_eq rfl

theorem Expr.nodeTest_isIdent : NodeTest false isIdent where
  ident impossible := Bool.noConfusion impossible

/-! ## Steps -/

section Steps

variable (slack) (registry : Registry) (defines : Stmt → Stmt → Prop)

/-- Before the step, the programs match as far as they have to. -/
def Stage.Matched : Stage → List Stmt → List Stmt → Prop
  | .definitions => fun program program' => ∀ definitions,
    (∀ found, Definition.collect registry .empty program = .ok found →
      definitions = found.definitions) →
    let granted :=
      Definition.GrantedLater (Wildcard.GrantedLater registry (Lists.Single registry)) definitions
    Forall₂ (Stmt.Accords slack granted (Definition.Corresponds slack granted)) program program'
  | .wildcards =>
    Forall₂ (Stmt.Accords slack (Wildcard.GrantedLater registry (Lists.Single registry)) defines)
  | .lists => Forall₂ (Stmt.Accords slack (Lists.Single registry) defines)
  | .placeholders | .aliases | .families | .blocks =>
    Forall₂ (Stmt.Accords slack Expr.Anything defines)
  | .conditions =>
    Forall₂ (Stmt.Matches slack (Expr.FitsRoot slack Expr.Anything)
      (Expr.FitsRoot slack Expr.Anything) (Expr.Same slack) defines)
  | .types | .chains => Forall₂ (Stmt.MatchesLowered slack defines)

end Steps

variable {registry : Registry} {defines : Stmt → Stmt → Prop}

theorem matched_of_sameProgram (same : SameProgram slack program program') :
    Stage.definitions.Matched slack registry defines program program' := by
  have accords {granted : Expr → Prop} {defines defines' : Stmt → Stmt → Prop} {s s' : Stmt}
      (same : s.Same slack defines s') (related : defines s s' → defines' s s') :
      s.Accords slack granted defines' s' :=
    same.mono (.inl ·.relax) (.inl ·.relax) (.inl ·.relax) related
  refine fun definitions _ => same.imp fun s s' first => accords first fun related => ?_
  cases first with
  | defineExpr => exact ⟨related.1, .expr related.2.relax⟩
  | defineBlock =>
    exact ⟨related.1, .block (related.2.imp fun _ _ inner => accords inner fun _ => trivial)⟩
  | _ => exact trivial

theorem Stage.agree_run (noFamily : slack.lenient → registry.family? evalName = none)
    (stage : Stage) (matched : stage.Matched slack registry defines program program') :
    slack.Agree (stage.next.Matched slack registry defines) (stage.run registry program)
      (stage.run registry program') := by
  cases stage with
  | definitions => exact Definition.agree_lower registry defines matched
  | wildcards => exact Wildcard.agree_lower registry matched
  | lists => exact Lists.agree_lower registry matched
  | placeholders => exact Placeholder.agree_lower matched
  | aliases => exact Alias.agree_lower registry matched
  | families => exact Families.agree_lower registry noFamily matched
  | blocks => exact Blocks.agree_flatten matched .nil
  | conditions => exact Conditions.agree_lower matched
  | types => exact Types.agree_lower registry matched
  | chains => exact Chains.agree_lower registry matched

theorem Stage.hasLeftover_next (stage : Stage)
    (matched : stage.next.Matched slack registry defines program program') :
    slack.Flags (stage.hasLeftover program) (stage.hasLeftover program') := by
  cases stage with
  | definitions => exact .any (matched.imp fun _ _ first => .of_eq (by cases first <;> rfl))
  | wildcards =>
    exact .any (matched.imp fun _ _ first => Stmt.hasNode_accords {} (fun _ => {}) first)
  | lists => exact .any (matched.imp fun _ _ first => Stmt.hasNode_accords {} (fun _ => {}) first)
  | placeholders =>
    exact .any (matched.imp fun _ _ first => Stmt.hasNode_accords {} (fun _ => {}) first)
  | aliases =>
    exact .any (matched.imp fun _ _ first =>
      Stmt.hasNode_accords Expr.nodeTest_isIdent (Bool.noConfusion ·) first)
  | blocks => exact .any (matched.imp fun _ _ first => .of_eq (by cases first <;> rfl))
  | chains =>
    refine .any (matched.imp fun _ _ first => ?_)
    cases first with
    | trigger _ acts _ => exact .of_eq (by simp only [Stmt.isUnsplit, acts.length_eq])
    | _ => exact .of_eq rfl
  | families => exact .of_eq rfl
  | conditions => exact .of_eq rfl
  | types => exact .of_eq rfl

theorem Stage.agree_runChecked (noFamily : slack.lenient → registry.family? evalName = none)
    (stage : Stage) (matched : stage.Matched slack registry defines program program') :
    slack.Agree (stage.next.Matched slack registry defines) (stage.runChecked registry program)
      (stage.runChecked registry program') := by
  refine (stage.agree_run noFamily matched).bind fun lowered lowered' yielded _ _ => ?_
  obtain ⟨fewer, same⟩ := stage.hasLeftover_next yielded
  unfold Stage.check
  by_cases left : stage.hasLeftover lowered = true
  · rw [if_pos left]
    rcases same with lenient | same
    · exact .of_stopped lenient rfl
    · rw [same, if_pos left]
      exact .broken
  · rw [if_neg left, if_neg (mt fewer left)]
    exact yielded

theorem Stage.InOrder.agree_lowerThrough {first last : Stage} {stages : List Stage}
    (inOrder : InOrder first stages last)
    (noFamily : slack.lenient → registry.family? evalName = none)
    (matched : first.Matched slack registry defines program program') :
    slack.Agree (last.next.Matched slack registry defines) (lowerThrough registry stages program)
      (lowerThrough registry stages program') := by
  induction inOrder generalizing program program' with
  | single stage =>
    exact (stage.agree_runChecked noFamily matched).bind fun _ _ matched _ _ => matched
  | cons _ _ ih =>
    exact (agree_runChecked noFamily _ matched).bind fun _ _ matched _ _ => ih matched

theorem agree_lowerProgram (noFamily : slack.lenient → registry.family? evalName = none)
    (matched : Stage.definitions.Matched slack registry defines program program') :
    slack.Agree (Forall₂ (Stmt.MatchesLowered slack defines)) (lowerProgram registry program)
      (lowerProgram registry program') :=
  Stage.inOrder_all.agree_lowerThrough noFamily matched

end AutomationScript
