import AutomationScript.Document.Emit
import AutomationScript.Proofs.Lowering.Chains
import AutomationScript.Proofs.Lowering.Types

/-!
# Every lowered program has a document

A program that went through all lowering steps has nothing left that a document has no place for.
-/

namespace AutomationScript

/-- A condition that a document can state: one that is no arithmetic. -/
def Expr.IsTest (reference : Ident → Expr → Prop) (e : Expr) : Prop :=
  e.IsCondition reference ∧
    ∀ operator args loc, e = .compound operator args loc → operator.producesBoolean = true

def TriggerArg.HasNumber (arg : TriggerArg) : Prop :=
  ∃ value loc, arg.count = some (.number value loc)

/-- A statement that a document can hold: an assignment to an id of a constant or a text for the
runtime, or a trigger with one action. -/
def Stmt.IsFinal (reference : Ident → Expr → Prop) : Stmt → Prop :=
  Stmt.Flat
    (Assigned (fun e => ∃ word loc, e = .ident word loc) Expr.IsStated (Expr.IsTest reference))
    fun awaited actions => awaited.HasNumber ∧ ∃ action, actions = [action] ∧ action.HasNumber

namespace Expr

variable {reference : Ident → Expr → Prop}

theorem IsOperand.exists_term? (keysNamed : KeysNamed reference) {e : Expr}
    (isOperand : e.IsOperand reference) : ∃ term, e.term? = some term := by
  cases isOperand with
  | stated _ stated => cases stated <;> exact ⟨_, rfl⟩
  | subscript base key loc _ isReference =>
    obtain ⟨word, keyLoc, rfl⟩ := keysNamed base key isReference
    exact ⟨_, rfl⟩

theorem IsCondition.exists_evalText (keysNamed : KeysNamed reference) {e : Expr}
    (isCondition : e.IsCondition reference) : ∃ text, e.evalText false = .ok text := by
  have hasTerm : ∃ term, e.term? = some term := by
    cases isCondition with
    | operand _ isOperand => exact isOperand.exists_term? keysNamed
    | compound operator args loc arity operands =>
      exact exists_term?_compound loc arity fun arg member =>
        (operands arg member).exists_term? keysNamed
  obtain ⟨term, found⟩ := hasTerm
  exact ⟨term.text false, evalText_eq_ok_iff.mpr ⟨term, found, rfl⟩⟩

end Expr

namespace Emit

variable {reference : Ident → Expr → Prop}
  (keysNamed : Expr.KeysNamed reference)

include keysNamed

theorem exists_operand {e : Expr} (isOperand : e.IsOperand reference) :
    ∃ stated, operand e = .ok stated := by
  cases isOperand with
  | stated _ stated => cases stated <;> exact ⟨_, rfl⟩
  | subscript base key loc _ isReference =>
    obtain ⟨word, keyLoc, rfl⟩ := keysNamed base key isReference
    exact ⟨_, rfl⟩

omit keysNamed in
theorem exists_comparison {operator : Operator} (notNot : operator ≠ .not)
    (produces : operator.producesBoolean = true) : ∃ text, comparison operator = .ok text := by
  cases operator with
  | not => exact absurd rfl notNot
  | and => exact ⟨_, rfl⟩
  | or => exact ⟨_, rfl⟩
  | eq => exact ⟨_, rfl⟩
  | ne => exact ⟨_, rfl⟩
  | lt => exact ⟨_, rfl⟩
  | le => exact ⟨_, rfl⟩
  | gt => exact ⟨_, rfl⟩
  | ge => exact ⟨_, rfl⟩
  | _ => cases produces

theorem exists_shape_compound {operator : Operator} {args : List Expr} (loc : Option Location)
    (arity : args.length = operator.arity) (operands : ∀ arg ∈ args, arg.IsOperand reference)
    (produces : operator.producesBoolean = true) :
    ∃ stated, shape (.compound operator args loc) = .ok stated := by
  by_cases isNot : operator = .not
  · subst isNot
    obtain ⟨inner, rfl⟩ := List.length_eq_one_iff.mp arity
    obtain ⟨stated, found⟩ := exists_operand keysNamed (operands inner List.mem_cons_self)
    rw [shape, found]
    exact ⟨_, rfl⟩
  · rw [operator.arity_of_ne_not isNot] at arity
    obtain ⟨left, right, rfl⟩ := List.length_eq_two.mp arity
    obtain ⟨text, compared⟩ := exists_comparison isNot produces
    obtain ⟨first, firstFound⟩ := exists_operand keysNamed (operands left List.mem_cons_self)
    obtain ⟨second, secondFound⟩ :=
      exists_operand keysNamed (operands right (List.mem_cons_of_mem _ List.mem_cons_self))
    refine ⟨(first, text, second), ?_⟩
    rw [shape, compared]
    · show (do
        let left ← operand left
        let right ← operand right
        return (left, text, right)) = _
      rw [firstFound, secondFound]
      rfl
    · exact isNot

theorem exists_shape {e : Expr} (isTest : e.IsTest reference) : ∃ stated, shape e = .ok stated := by
  obtain ⟨isCondition, boolean⟩ := isTest
  cases isCondition with
  | compound operator args loc arity operands =>
    exact exists_shape_compound keysNamed loc arity operands (boolean operator args loc rfl)
  | operand _ isOperand =>
    obtain ⟨stated, found⟩ := exists_operand keysNamed isOperand
    have opened : shape e = (do
        return (← operand e, Operator.eq.symbol, ("Boolean", .boolean true))) := by
      cases isOperand with
      | stated _ stated => cases stated <;> rfl
      | subscript base key loc _ _ => rfl
    rw [opened, found]
    exact ⟨_, rfl⟩

theorem exists_assignment (d : Document) (name : String) {value : Expr} {condition : Option Expr}
    (stated : value.IsStated) (tests : ∀ e ∈ condition, e.IsTest reference) :
    ∃ document, assignment d name value condition = .ok document := by
  cases condition with
  | none => cases stated <;> exact ⟨_, rfl⟩
  | some condition =>
    have isTest := tests condition rfl
    obtain ⟨comparison, shaped⟩ := exists_shape keysNamed isTest
    obtain ⟨holds, spelled⟩ := isTest.1.exists_evalText keysNamed
    cases stated with
    | eval text loc =>
      rw [assignment, spelled]
      exact ⟨_, rfl⟩
    | _ =>
      simp only [assignment, shaped]
      exact ⟨_, rfl⟩

omit keysNamed

theorem exists_count {arg : TriggerArg} (hasNumber : arg.HasNumber) : ∃ n, count arg = .ok n := by
  obtain ⟨value, loc, isCount⟩ := hasNumber
  exact ⟨value.toInt64, by rw [count, isCount]⟩

theorem exists_statements (keysNamed : Expr.KeysNamed reference) {program : List Stmt}
    (final : ∀ s ∈ program, s.IsFinal reference) (d : Document) :
    ∃ document, statements d program = .ok document := by
  induction program generalizing d with
  | nil =>
    exact ⟨d, rfl⟩
  | cons s rest ih =>
    obtain ⟨sFinal, restFinal⟩ := List.forall_mem_cons.mp final
    have stated : ∃ next, statement d s = .ok next := by
      cases sFinal with
      | assign left right own tag parts =>
        obtain ⟨⟨word, loc, rfl⟩, rightStated, ownTests⟩ := parts
        exact exists_assignment keysNamed d word.name rightStated ownTests
      | trigger awaited actions tag parts =>
        obtain ⟨awaitedNumber, action, rfl, actionNumber⟩ := parts
        obtain ⟨requirement, requirementFound⟩ := exists_count awaitedNumber
        obtain ⟨times, timesFound⟩ := exists_count actionNumber
        rw [statement, trigger, requirementFound, timesFound]
        exact ⟨_, rfl⟩
    obtain ⟨next, nextFound⟩ := stated
    obtain ⟨document, found⟩ := ih restFinal next
    refine ⟨document, ?_⟩
    rw [statements, nextFound]
    exact found

end Emit

/-! ## Lowered programs are final -/

variable {registry : Registry} {reference : Ident → Expr → Prop}

theorem TriggerArg.HasCount.hasNumber {arg : TriggerArg} (hasCount : arg.HasCount) :
    arg.HasNumber := by
  obtain ⟨value, loc, _, isCount, _⟩ := hasCount
  exact ⟨value, loc, isCount⟩

theorem Chains.hasNumber_of_isChain {arg : TriggerArg} (waits : isChain arg = true) :
    arg.HasNumber := by
  rw [isChain, Bool.and_eq_true] at waits
  obtain ⟨kind, id, given, loc⟩ := arg
  cases given with
  | none => cases waits.2
  | some e =>
    cases e with
    | number value numberLoc => exact ⟨value, numberLoc, rfl⟩
    | _ => cases waits.2

theorem Types.Passed.isTest {left right condition : Expr}
    (passed : Passed registry reference left right (some condition)) :
    condition.IsTest reference := by
  refine ⟨passed.1.2.2 condition rfl, ?_⟩
  rintro operator args loc rfl
  exact producesBoolean_of_checkCondition passed.checkCondition

theorem Stmt.isFinal_of_flat {s : Stmt}
    (flat : s.Flat (Types.Passed registry reference) (Chains.Split registry)) :
    s.IsFinal reference := by
  cases flat with
  | assign left right own tag passed =>
    obtain ⟨word, loc, isName, _⟩ := passed.1.1
    refine .assign left right own tag ⟨⟨word, loc, isName⟩, passed.1.2.1, ?_⟩
    rintro condition ⟨⟩
    exact passed.isTest
  | trigger awaited actions tag split =>
    obtain ⟨awaitedHolds, action, isOne, normalized⟩ := split
    refine .trigger awaited actions tag ⟨?_, action, isOne, normalized.counted.hasNumber⟩
    rcases awaitedHolds with waits | awaitedNormalized
    · exact Chains.hasNumber_of_isChain waits
    · exact awaitedNormalized.counted.hasNumber

end AutomationScript
