import AutomationScript.Lowering.Conditions
import AutomationScript.Proofs.Lowering.Outcome
import AutomationScript.Proofs.Term.Basic

/-!
# What lowering does to values and conditions

The cases of the lowering of values, of conditions and of the operands of their roots.
-/

namespace AutomationScript

def Expr.isCompound : Expr → Bool
  | .compound _ _ _ => true
  | _ => false

theorem Expr.term?_of_inlineEval? {e : Expr} {text : String} (inline : e.inlineEval? = some text) :
    e.term? = some (.raw text) := by
  cases e with
  | subscript base key loc =>
    cases key with
    | ident word wordLoc =>
      rw [inlineEval?] at inline
      by_cases braces : base.name = evalName
      · rw [if_pos braces] at inline
        cases inline
        simp [term?, braces]
      · rw [if_neg braces] at inline
        cases inline
    | _ => cases inline
  | _ => cases inline

theorem Expr.isLeaf_of_not_isCompound {e : Expr} {term : Term} (single : e.isCompound = false)
    (found : e.term? = some term) : term.isLeaf = true := by
  cases e with
  | compound operator args loc => cases single
  | subscript base key loc =>
    cases key with
    | ident word wordLoc =>
      rw [term?] at found
      cases found
      split <;> rfl
    | _ => cases found
  | string value loc =>
    cases found
    rfl
  | number value loc =>
    cases found
    rfl
  | boolean value loc =>
    cases found
    rfl
  | eval text loc =>
    cases found
    rfl
  | _ => cases found

namespace Conditions

variable {lowered : Revised Expr}

/-- An operand with operators becomes its text, text in braces becomes text, and any other operand
stays. -/
theorem lowerOperand_cases {operand : Expr} (ran : lowerOperand operand = .ok lowered) :
    (∃ text, operand.isCompound = true ∧ operand.evalText false = .ok text ∧
        lowered = .new (.eval text operand.loc)) ∨
      (∃ text, operand.inlineEval? = some text ∧ lowered = .new (.eval text operand.loc)) ∨
      operand.isCompound = false ∧ operand.inlineEval? = none ∧ lowered = .kept operand := by
  by_cases compound : operand.isCompound = true
  · cases operand with
    | compound operator args loc =>
      rw [lowerOperand] at ran
      cases spelled : (Expr.compound operator args loc).evalText false with
      | error defect =>
        rw [spelled] at ran
        cases ran
      | ok text =>
        rw [spelled] at ran
        cases ran
        exact .inl ⟨text, rfl, rfl, rfl⟩
    | _ => cases compound
  · have single : operand.isCompound = false := Bool.eq_false_iff.mpr compound
    cases inline : operand.inlineEval? with
    | some text =>
      have opened : lowerOperand operand = .ok (.new (.eval text operand.loc)) := by
        cases operand with
        | compound operator args loc => cases single
        | subscript base key loc =>
          simp only [lowerOperand, inline]
          rfl
        | _ => cases inline
      rw [opened] at ran
      cases ran
      exact .inr (.inl ⟨text, rfl, rfl⟩)
    | none =>
      have opened : lowerOperand operand = .ok (.kept operand) := by
        cases operand with
        | compound operator args loc => cases single
        | subscript base key loc =>
          simp only [lowerOperand, inline]
          rfl
        | _ => rfl
      rw [opened] at ran
      cases ran
      exact .inr (.inr ⟨single, rfl, rfl⟩)

/-- A condition with an operator at its root keeps it and has its operands lowered; any other
condition is lowered like an operand. -/
theorem lowerCondition_cases {condition : Expr} (ran : lowerCondition condition = .ok lowered) :
    (∃ operator args loc revised, condition = .compound operator args loc ∧
        reviseList lowerOperand args = .ok revised ∧
        lowered = revised.map (.compound operator · loc)) ∨
      condition.isCompound = false ∧ lowerOperand condition = .ok lowered := by
  cases condition with
  | compound operator args loc =>
    obtain ⟨revised, argsLowered, rfl⟩ := bind_pure_eq_ok_iff.mp ran
    exact .inl ⟨operator, args, loc, revised, rfl, argsLowered, rfl⟩
  | _ => exact .inr ⟨rfl, ran⟩

/-- A constant and text for the runtime stay; any other value becomes its text. -/
theorem lowerValue_cases {value : Expr} (ran : lowerValue value = .ok lowered) :
    (lowered = .kept value ∧ (value.isConstant = true ∨ ∃ text loc, value = .eval text loc)) ∨
      ∃ text, value.isConstant = false ∧ value.evalText false = .ok text ∧
        lowered = .new (.eval text value.loc) := by
  cases spelled : value.evalText false with
  | error defect =>
    cases value with
    | eval text loc => cases spelled
    | string value loc => cases spelled
    | number value loc => cases spelled
    | boolean value loc => cases spelled
    | _ =>
      obtain ⟨text, found, _⟩ := bind_pure_eq_ok_iff.mp ran
      rw [spelled] at found
      cases found
  | ok text =>
    cases value with
    | eval text loc =>
      cases ran
      exact .inl ⟨rfl, .inr ⟨text, loc, rfl⟩⟩
    | string value loc =>
      cases ran
      exact .inl ⟨rfl, .inl rfl⟩
    | number value loc =>
      cases ran
      exact .inl ⟨rfl, .inl rfl⟩
    | boolean value loc =>
      cases ran
      exact .inl ⟨rfl, .inl rfl⟩
    | _ =>
      obtain ⟨text, found, rfl⟩ := bind_pure_eq_ok_iff.mp ran
      rw [spelled] at found
      cases found
      exact .inr ⟨text, rfl, rfl, rfl⟩

end Conditions

end AutomationScript
