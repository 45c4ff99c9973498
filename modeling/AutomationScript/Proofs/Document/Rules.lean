import AutomationScript.Document.Emit
import AutomationScript.Proofs.Lowering.Conditions
import AutomationScript.Proofs.Table

/-!
# The rules of a document

The rule of an assignment is found by counting the assignments before it that give the same setting
a rule (`Emit.rulesFor_statements`).
-/

namespace AutomationScript

open List

variable {value : Expr}

namespace Document

def rulesFor (d : Document) (name : String) : List Rule :=
  (d.overrides.get? name).getD []

theorem rulesFor_addRule (d : Document) (name : String) (rule : Rule) (tested : String) :
    (d.addRule name rule).rulesFor tested =
      d.rulesFor tested ++ if tested = name then [rule] else [] := by
  rw [rulesFor, addRule, Table.get?_insert]
  by_cases same : tested = name
  · subst same
    simp [rulesFor]
  · simp [same, rulesFor]

end Document

/-- Whether a statement gives a setting a rule: it assigns under a condition, or no constant. -/
def Stmt.overrides (name : String) : Stmt → Bool
  | .assign target value condition _ =>
    target.name? == some name && (condition.isSome || !value.isConstant)
  | _ => false

/-- The rule for the assignment to a setting that stands after the statements `before`. -/
def Document.ruleAfter? (d : Document) (before : List Stmt) (name : String) : Option Rule :=
  (d.rulesFor name)[before.countP (Stmt.overrides name)]?

namespace Emit

variable {d d' : Document}

theorem shape_of_not_isCompound {e : Expr} (single : e.isCompound = false) :
    shape e = (operand e >>= fun left =>
      pure (left, Operator.eq.symbol, ("Boolean", .boolean true))) := by
  cases e with
  | compound operator args loc => cases single
  | _ => rfl

theorem shape_binary
    {operator : Operator} (notNot : operator ≠ .not) (left right : Expr) (loc : Option Location) :
    shape (.compound operator [left, right] loc) = (do
      let cmp ← comparison operator
      let left ← operand left
      let right ← operand right
      return (left, cmp, right)) := by
  cases operator with
  | not => exact absurd rfl notNot
  | _ => rfl

theorem exists_pair_of_shape {operator : Operator} {args : List Expr} {loc : Option Location}
    {shaped : Operand × String × Operand} (notNot : operator ≠ .not)
    (stated : shape (.compound operator args loc) = .ok shaped) :
    ∃ left right, args = [left, right] := by
  rcases args with _ | ⟨left, _ | ⟨right, _ | ⟨third, more⟩⟩⟩
  case cons.cons.nil => exact ⟨left, right, rfl⟩
  all_goals
    cases operator with
    | not => exact absurd rfl notNot
    | _ =>
      obtain ⟨_, _, impossible⟩ := bind_eq_ok_iff.mp stated
      cases impossible

def conditionalRule (value condition : Expr) : Except Defect Rule :=
  match value with
  | .eval text _ => do
    let holds ← condition.evalText false
    return ⟨evalType, .string holds, valueComparison, evalType, .string text, .null⟩
  | _ => do
    let (left, cmp, right) ← shape condition
    let ret ← constant value
    return ⟨left.1, left.2, cmp, right.1, right.2, ret⟩

/-- The rule that states an assignment, unless it sets a value. -/
def ruleOf (value : Expr) : Option Expr → Except Defect Rule
  | some condition => conditionalRule value condition
  | none =>
    match value with
    | .eval text _ =>
      .ok ⟨"Boolean", .boolean true, valueComparison, evalType, .string text, .null⟩
    | e => .error (.emitConstant e.variant)

theorem assignment_conditional (d : Document) (name : String) (value condition : Expr) :
    assignment d name value (some condition) =
      (conditionalRule value condition >>= fun rule => pure (d.addRule name rule)) := by
  cases value with
  | eval text loc =>
    rw [assignment, conditionalRule]
    cases condition.evalText false with
    | error defect => rfl
    | ok holds => rfl
  | _ =>
    simp only [assignment, conditionalRule]
    cases shape condition with
    | error defect => rfl
    | ok shaped =>
      cases constant _ with
      | error defect => rfl
      | ok ret => rfl

theorem conditionalRule_of_isConstant {condition : Expr} {rule : Rule}
    (fixed : value.isConstant = true) (ruled : conditionalRule value condition = .ok rule) :
    ∃ left cmp right ret, shape condition = .ok (left, cmp, right) ∧
      constant value = .ok ret ∧ rule = ⟨left.1, left.2, cmp, right.1, right.2, ret⟩ := by
  have opened : conditionalRule value condition = (do
      let (left, cmp, right) ← shape condition
      let ret ← constant value
      return ⟨left.1, left.2, cmp, right.1, right.2, ret⟩) := by
    cases value with
    | string value loc => rfl
    | number value loc => rfl
    | boolean value loc => rfl
    | _ => cases fixed
  rw [opened] at ruled
  obtain ⟨⟨left, cmp, right⟩, shaped, ruled⟩ := bind_eq_ok_iff.mp ruled
  obtain ⟨ret, stated, rfl⟩ := bind_pure_eq_ok_iff.mp ruled
  exact ⟨left, cmp, right, ret, shaped, stated, rfl⟩

/-- An assignment adds a rule, or it sets a value: that of a constant without a condition. -/
theorem assignment_cases {name : String} {condition : Option Expr}
    (emitted : assignment d name value condition = .ok d') :
    (∃ rule, d' = d.addRule name rule ∧ (condition.isSome || !value.isConstant) = true ∧
        ruleOf value condition = .ok rule) ∨
      ∃ ret, d' = d.setValue name ret ∧ condition = none ∧ value.isConstant = true ∧
        constant value = .ok ret := by
  cases condition with
  | some condition =>
    rw [assignment_conditional] at emitted
    obtain ⟨rule, stated, added⟩ := bind_pure_eq_ok_iff.mp emitted
    exact .inl ⟨rule, added.symm, rfl, stated⟩
  | none =>
    by_cases fixed : value.isConstant = true
    · have set : assignment d name value none =
          (constant value >>= fun ret => pure (d.setValue name ret)) := by
        cases value with
        | string value loc => rfl
        | number value loc => rfl
        | boolean value loc => rfl
        | _ => cases fixed
      rw [set] at emitted
      obtain ⟨ret, stated, added⟩ := bind_pure_eq_ok_iff.mp emitted
      exact .inr ⟨ret, added.symm, rfl, fixed, stated⟩
    · cases value with
      | eval text loc =>
        cases emitted
        exact .inl ⟨_, rfl, rfl, rfl⟩
      | string value loc => exact absurd rfl fixed
      | number value loc => exact absurd rfl fixed
      | boolean value loc => exact absurd rfl fixed
      | _ => cases emitted

theorem statement_cases {s : Stmt} (emitted : statement d s = .ok d') :
    (∃ target value condition tag name, s = .assign target value condition tag ∧
      target.name? = some name ∧ assignment d name value condition = .ok d') ∨
      ∃ condition action tag, s = .trigger condition [action] tag ∧
        trigger d condition action = .ok d' := by
  cases s with
  | assign target value condition tag =>
    rw [statement] at emitted
    cases named : target.name? with
    | none =>
      rw [named] at emitted
      cases emitted
    | some name =>
      rw [named] at emitted
      exact .inl ⟨target, value, condition, tag, name, rfl, named, emitted⟩
  | trigger condition actions tag =>
    rcases actions with _ | ⟨action, _ | ⟨second, others⟩⟩
    · cases emitted
    · exact .inr ⟨condition, action, tag, rfl, emitted⟩
    · cases emitted
  | _ => cases emitted

theorem rulesFor_statement {s : Stmt} (emitted : statement d s = .ok d') (name : String) :
    (s.overrides name = false ∧ d'.rulesFor name = d.rulesFor name) ∨
      ∃ target value condition tag rule,
        s = .assign target value condition tag ∧ target.name? = some name ∧
        s.overrides name = true ∧ ruleOf value condition = .ok rule ∧
        d'.rulesFor name = d.rulesFor name ++ [rule] := by
  rcases statement_cases emitted with
    ⟨target, value, condition, tag, assigned, rfl, named, emitted⟩ | ⟨_, _, tag, rfl, emitted⟩
  · rcases assignment_cases emitted with
      ⟨rule, rfl, overriding, stated⟩ | ⟨ret, rfl, rfl, fixed, _⟩
    · by_cases same : name = assigned
      · subst same
        refine .inr ⟨target, value, condition, tag, rule, rfl, named, ?_, stated, ?_⟩
        · simp [Stmt.overrides, named, overriding]
        · rw [Document.rulesFor_addRule, if_pos rfl]
      · refine .inl ⟨by simp [Stmt.overrides, named, Ne.symm same], ?_⟩
        rw [Document.rulesFor_addRule, if_neg same, append_nil]
    · exact .inl ⟨by simp [Stmt.overrides, fixed], rfl⟩
  · obtain ⟨requirementCount, _, continued⟩ := bind_eq_ok_iff.mp emitted
    obtain ⟨actionCount, _, rfl⟩ := bind_pure_eq_ok_iff.mp continued
    exact .inl ⟨rfl, rfl⟩

theorem statements_append (d : Document) (front back : List Stmt) :
    statements d (front ++ back) = (statements d front >>= fun d' => statements d' back) := by
  induction front generalizing d with
  | nil =>
    rfl
  | cons s rest ih =>
    rw [cons_append, statements, statements]
    cases statement d s with
    | error defect => rfl
    | ok d' => exact ih d'

theorem rulesFor_statements {program : List Stmt} (emitted : statements d program = .ok d')
    (name : String) :
    ∃ rules, d'.rulesFor name = d.rulesFor name ++ rules ∧
      rules.length = program.countP (Stmt.overrides name) := by
  induction program generalizing d with
  | nil =>
    cases emitted
    exact ⟨[], (append_nil _).symm, rfl⟩
  | cons s rest ih =>
    obtain ⟨middle, first, others⟩ := bind_eq_ok_iff.mp emitted
    obtain ⟨later, addedLater, countLater⟩ := ih others
    rcases rulesFor_statement first name with
      ⟨notOver, same⟩ | ⟨_, _, _, _, rule, _, _, isOver, _, added⟩
    · refine ⟨later, by rw [addedLater, same], ?_⟩
      rw [countLater, countP_cons, notOver]
      rfl
    · refine ⟨rule :: later, by rw [addedLater, added, append_assoc]; rfl, ?_⟩
      rw [length_cons, countLater, countP_cons, isOver]
      rfl

/-- Every rule that statements add is that of the assignment at its place. -/
theorem exists_assign_of_rule {program : List Stmt} (emitted : statements d program = .ok d')
    {name : String} {i : Nat} {rule : Rule} (found : (d'.rulesFor name)[i]? = some rule)
    (added : (d.rulesFor name).length ≤ i) :
    ∃ before target value condition tag after,
      program = before ++ .assign target value condition tag :: after ∧
      target.name? = some name ∧
      (d.rulesFor name).length + before.countP (Stmt.overrides name) = i ∧
      (condition.isSome || !value.isConstant) = true ∧ ruleOf value condition = .ok rule := by
  induction program generalizing d with
  | nil =>
    cases emitted
    have inside := (List.getElem?_eq_some_iff.mp found).1
    omega
  | cons s rest ih =>
    obtain ⟨middle, first, others⟩ := bind_eq_ok_iff.mp emitted
    rcases rulesFor_statement first name with
      ⟨notOver, same⟩ | ⟨target, value, condition, tag, own, rfl, named, isOver, stated, longer⟩
    · rw [← same] at added
      obtain ⟨before, target, value, condition, tag, after, rfl, named, place, stated⟩ :=
        ih others added
      refine ⟨s :: before, target, value, condition, tag, after, rfl, named, ?_, stated⟩
      rw [countP_cons, notOver, ← same]
      simpa using place
    · have length : (middle.rulesFor name).length = (d.rulesFor name).length + 1 := by
        rw [longer, length_append, length_singleton]
      by_cases here : i = (d.rulesFor name).length
      · -- The rest only appends rules, so this one is the statement's own.
        obtain ⟨later, all, _⟩ := rulesFor_statements others name
        have isOwn : (d'.rulesFor name)[i]? = some own := by
          rw [all, longer, here]
          simp
        rw [isOwn] at found
        cases found
        have overriding : (condition.isSome || !value.isConstant) = true := by
          simpa [Stmt.overrides, named] using isOver
        exact ⟨[], target, value, condition, tag, rest, rfl, named, here.symm, overriding, stated⟩
      · obtain ⟨before, target', value', condition', tag', after, rfl, named', place, stated'⟩ :=
          ih others (by omega)
        refine ⟨_ :: before, target', value', condition', tag', after, rfl, named', ?_, stated'⟩
        rw [countP_cons, isOver]
        simp only [if_true]
        omega

end Emit

/-- In the document of a lowered program, the rule of an assignment under a condition stands after
the rules of the assignments before it. -/
theorem ruleAfter?_of_emit {before after : List Stmt} {document : Document}
    {target condition : Expr} {tag : Tag}
    (emitted : emit (before ++ .assign target value (some condition) tag :: after) = .ok document) :
    ∃ name rule, target.name? = some name ∧ document.ruleAfter? before name = some rule ∧
      Emit.conditionalRule value condition = .ok rule := by
  rw [emit, Emit.statements_append] at emitted
  obtain ⟨start, beforeEmitted, rest⟩ := bind_eq_ok_iff.mp emitted
  obtain ⟨middle, here, afterEmitted⟩ := bind_eq_ok_iff.mp rest
  rw [Emit.statement] at here
  cases named : target.name? with
  | none =>
    rw [named] at here
    cases here
  | some name =>
    rw [named] at here
    change Emit.assignment start name value (some condition) = .ok middle at here
    rw [Emit.assignment_conditional] at here
    obtain ⟨rule, stated, added⟩ := bind_pure_eq_ok_iff.mp here
    obtain ⟨earlier, startRules, earlierCount⟩ := Emit.rulesFor_statements beforeEmitted name
    obtain ⟨later, documentRules, _⟩ := Emit.rulesFor_statements afterEmitted name
    have rules : document.rulesFor name = earlier ++ rule :: later := by
      rw [documentRules, ← added, Document.rulesFor_addRule, startRules]
      simp [Document.rulesFor, Document.empty, Table.get?, Table.empty]
    refine ⟨name, rule, rfl, ?_, stated⟩
    rw [Document.ruleAfter?, rules, ← earlierCount]
    simp

end AutomationScript
