import Mathlib.Data.List.Basic
import AutomationScript.Proofs.Lowering.Blocks
import AutomationScript.Proofs.Lowering.Conditions
import AutomationScript.Proofs.Lowering.Revision

/-!
# Forms after values and conditions are lowered

Lowering the values and conditions of a flat program leaves values that are constants or texts, and
conditions with at most one operator, over operands that a document can state.
-/

namespace AutomationScript

open List

namespace Expr

/-- A constant or a text for the runtime. -/
inductive IsStated : Expr → Prop where
  | string (value : String) (loc : Option Location) :
      IsStated (.string value loc)
  | number (value : Number) (loc : Option Location) :
      IsStated (.number value loc)
  | boolean (value : Bool) (loc : Option Location) :
      IsStated (.boolean value loc)
  | eval (text : String) (loc : Option Location) :
      IsStated (.eval text loc)

/-- What a document can state as an operand: a constant, a text for the runtime or a reference. -/
inductive IsOperand (reference : Ident → Expr → Prop) : Expr → Prop where
  | stated (e : Expr) :
      e.IsStated →
      IsOperand reference e
  | subscript (base : Ident) (key : Expr) (loc : Option Location) :
      base.name ≠ evalName →
      reference base key →
      IsOperand reference (.subscript base key loc)

/-- An operand, or one operator over operands. -/
inductive IsCondition (reference : Ident → Expr → Prop) : Expr → Prop where
  | operand (e : Expr) :
      e.IsOperand reference →
      IsCondition reference e
  | compound (operator : Operator) (args : List Expr) (loc : Option Location) :
      args.length = operator.arity →
      (∀ arg ∈ args, arg.IsOperand reference) →
      IsCondition reference (.compound operator args loc)

/-- Keys of references are names. -/
def KeysNamed (reference : Ident → Expr → Prop) : Prop :=
  ∀ base key, reference base key → ∃ word loc, key = .ident word loc

theorem exists_term?_compound {operator : Operator} {args : List Expr} (loc : Option Location)
    (arity : args.length = operator.arity) (each : ∀ arg ∈ args, ∃ term, arg.term? = some term) :
    ∃ term, term? (.compound operator args loc) = some term := by
  by_cases isNot : operator = .not
  · subst isNot
    obtain ⟨operand, rfl⟩ := length_eq_one_iff.mp arity
    obtain ⟨term, found⟩ := each operand mem_cons_self
    exact ⟨.negation term, by rw [term?_not, found]; rfl⟩
  · rw [operator.arity_of_ne_not isNot] at arity
    obtain ⟨left, right, rfl⟩ := length_eq_two.mp arity
    obtain ⟨leftTerm, leftFound⟩ := each left mem_cons_self
    obtain ⟨rightTerm, rightFound⟩ := each right (mem_cons_of_mem _ mem_cons_self)
    exact ⟨.binary operator leftTerm rightTerm,
      by rw [term?_binary isNot, leftFound, rightFound]; rfl⟩

variable {reference : Ident → Expr → Prop}

theorem Formed.exists_term? (keysNamed : KeysNamed reference) {e : Expr}
    (formed : e.Formed reference) : ∃ term, e.term? = some term := by
  induction formed with
  | string value loc => exact ⟨_, rfl⟩
  | number value loc => exact ⟨_, rfl⟩
  | boolean value loc => exact ⟨_, rfl⟩
  | subscript base key loc isReference =>
    obtain ⟨word, keyLoc, rfl⟩ := keysNamed base key isReference
    exact ⟨_, rfl⟩
  | compound operator args loc arity each ih => exact exists_term?_compound loc arity ih

theorem Formed.exists_evalText (keysNamed : KeysNamed reference) {e : Expr}
    (formed : e.Formed reference) : ∃ text, e.evalText false = .ok text := by
  obtain ⟨term, found⟩ := formed.exists_term? keysNamed
  exact ⟨term.text false, evalText_eq_ok_iff.mpr ⟨term, found, rfl⟩⟩

end Expr

namespace Conditions

variable {reference : Ident → Expr → Prop} (keysNamed : Expr.KeysNamed reference)

include keysNamed

theorem becomes_lowerValue {e : Expr} (formed : e.Formed reference) :
    Becomes Expr.IsStated (lowerValue e) := by
  obtain ⟨text, spelled⟩ := formed.exists_evalText keysNamed
  cases formed with
  | string value loc => exact .string value loc
  | number value loc => exact .number value loc
  | boolean value loc => exact .boolean value loc
  | subscript base key loc isReference =>
    rw [lowerValue, spelled]
    · exact .eval text _
    · exact nofun
  | compound operator args loc arity each =>
    rw [lowerValue, spelled]
    · exact .eval text _
    · exact nofun

theorem becomes_lowerOperand {e : Expr} (formed : e.Formed reference) :
    Becomes (Expr.IsOperand reference) (lowerOperand e) := by
  obtain ⟨text, spelled⟩ := formed.exists_evalText keysNamed
  cases formed with
  | string value loc => exact .stated _ (.string value loc)
  | number value loc => exact .stated _ (.number value loc)
  | boolean value loc => exact .stated _ (.boolean value loc)
  | subscript base key loc isReference =>
    obtain ⟨word, keyLoc, rfl⟩ := keysNamed base key isReference
    by_cases braces : base.name = evalName
    · simp only [lowerOperand, Expr.inlineEval?, if_pos braces]
      exact .stated _ (.eval word.name loc)
    · simp only [lowerOperand, Expr.inlineEval?, if_neg braces]
      exact .subscript base _ loc braces isReference
  | compound operator args loc arity each =>
    rw [lowerOperand, spelled]
    exact .stated _ (.eval text _)

theorem becomes_lowerCondition {e : Expr} (formed : e.Formed reference) :
    Becomes (Expr.IsCondition reference) (lowerCondition e) := by
  have asOperand := (becomes_lowerOperand keysNamed formed).mono fun revised isOperand =>
    Expr.IsCondition.operand revised.value isOperand
  cases formed with
  | compound operator args loc arity each =>
    have operands := becomes_reviseList fun arg member =>
      becomes_lowerOperand keysNamed (each arg member)
    refine operands.bind fun revised ⟨sameLength, areOperands⟩ => ?_
    exact .compound operator _ loc (sameLength.trans arity) areOperands
  | _ => exact asOperand

theorem yields_lower {target : Expr → Prop} {fired : TriggerArg → List TriggerArg → Prop}
    {program : List Stmt}
    (flat : ∀ s ∈ program,
      s.Flat (Assigned target (Expr.Formed reference) (Expr.Formed reference)) fired) :
    Yields (fun lowered => ∀ t ∈ lowered,
        t.Flat (Assigned target Expr.IsStated (Expr.IsCondition reference)) fired)
      (lower program) := by
  refine Yields.lowerEach (fun s sFlat => ?_) flat
  cases sFlat with
  | assign left right own tag parts =>
    obtain ⟨isTarget, valueFormed, ownFormed⟩ := parts
    refine (becomes_lowerValue keysNamed valueFormed).bind fun newValue stated => ?_
    refine (Becomes.reviseOption (fun e => becomes_lowerCondition keysNamed) ownFormed).bind
      fun newCondition conditionHolds => ?_
    exact forall_mem_singleton.mpr (.assign left _ _ _ ⟨isTarget, stated, conditionHolds⟩)
  | trigger awaited actions tag holds =>
    exact forall_mem_singleton.mpr (.trigger awaited actions tag holds)

end Conditions

end AutomationScript
