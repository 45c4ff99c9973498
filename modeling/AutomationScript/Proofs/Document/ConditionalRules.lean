import AutomationScript.Proofs.Grammar.Chars
import AutomationScript.Proofs.Pipeline.Flat
import AutomationScript.Proofs.Runtime

/-!
# Assignments under conditions and their rules

`conditionalRules` pairs the assignments under conditions of a script with their rules.
-/

namespace AutomationScript

/-- An assignment under a condition, as it stands in a flat program, and its rule. -/
structure ConditionalRule where
  value : Expr
  condition : Expr
  rule : Rule

/-- The rule of a statement that stands after `before`, if it assigns under a condition. -/
def Document.conditionalRule? (d : Document) (before : List Stmt) : Stmt → Option ConditionalRule
  | .assign target value (some condition) _ => do
    let name ← target.name?
    let rule ← d.ruleAfter? before name
    return ⟨value, condition, rule⟩
  | _ => none

/-- The rules of the statements that stand after `before` and assign under conditions. -/
def Document.conditionalRules (d : Document) (before : List Stmt) :
    List Stmt → List ConditionalRule
  | [] => []
  | s :: rest => (d.conditionalRule? before s).toList ++ d.conditionalRules (before ++ [s]) rest

/-- The assignments under conditions of a parsed script, with their rules in the document. -/
def conditionalRulesOf (registry : Registry) :
    List Stmt × List Diagnostic → List ConditionalRule
  | (program, []) =>
    match compileProgram registry program,
      lowerThrough registry Stage.beforeConditions program with
    | .ok document, .ok flat => document.conditionalRules [] flat
    | _, _ => []
  | _ => []

/-- The assignments under conditions of a script, as they stand in its flat program, with their
rules in the document. -/
def conditionalRules (registry : Registry) (source : String) : List ConditionalRule :=
  conditionalRulesOf registry (parse source)

theorem conditionalRules_eq_ofChars (registry : Registry) (source : String) :
    conditionalRules registry source = conditionalRulesOf registry (parseChars source.toList) := by
  rw [conditionalRules, parse_eq_parseChars]

variable {c : ConditionalRule}

theorem Document.conditionalRule?_eq_some_iff {d : Document} {before : List Stmt} {s : Stmt} :
    d.conditionalRule? before s = some c ↔
      ∃ target name tag, s = .assign target c.value (some c.condition) tag ∧
        target.name? = some name ∧ d.ruleAfter? before name = some c.rule := by
  constructor
  · intro found
    cases s with
    | assign target value condition tag =>
      cases condition with
      | none => cases found
      | some condition =>
        obtain ⟨name, named, found⟩ := Option.bind_eq_some_iff.mp found
        obtain ⟨rule, ruled, found⟩ := Option.bind_eq_some_iff.mp found
        cases found
        exact ⟨target, name, tag, rfl, named, ruled⟩
    | _ => cases found
  · rintro ⟨target, name, tag, rfl, named, ruled⟩
    simp [conditionalRule?, named, ruled]

theorem Document.mem_conditionalRules_iff {d : Document} {before flat : List Stmt} :
    c ∈ d.conditionalRules before flat ↔
      ∃ front target name tag after,
        flat = front ++ .assign target c.value (some c.condition) tag :: after ∧
        target.name? = some name ∧ d.ruleAfter? (before ++ front) name = some c.rule := by
  induction flat generalizing before with
  | nil =>
    simp [conditionalRules]
  | cons s rest ih =>
    rw [conditionalRules, List.mem_append, Option.mem_toList,
      conditionalRule?_eq_some_iff, ih]
    constructor
    · rintro (⟨target, name, tag, rfl, named, found⟩ |
        ⟨front, target, name, tag, after, rfl, named, found⟩)
      · exact ⟨[], target, name, tag, rest, rfl, named, by rw [List.append_nil]; exact found⟩
      · exact ⟨s :: front, target, name, tag, after, rfl, named,
          by rw [List.append_cons]; exact found⟩
    · rintro ⟨front, target, name, tag, after, split, named, found⟩
      cases front with
      | nil =>
        cases split
        rw [List.append_nil] at found
        exact .inl ⟨target, name, tag, rfl, named, found⟩
      | cons first front =>
        cases split
        rw [List.append_cons] at found
        exact .inr ⟨front, target, name, tag, after, rfl, named, found⟩

/-- The list has every assignment under a condition of the flat program, each with the rule that
stands at its place in the document. -/
theorem mem_conditionalRules_iff {registry : Registry} {source : String} :
    c ∈ conditionalRules registry source ↔
      ∃ document before target name tag after,
        compile registry source = .ok document ∧
        flatProgram registry source =
          .ok (before ++ .assign target c.value (some c.condition) tag :: after) ∧
        target.name? = some name ∧ document.ruleAfter? before name = some c.rule := by
  rw [conditionalRules, compile, flatProgram]
  generalize parse source = read
  obtain ⟨program, errors⟩ := read
  cases errors with
  | cons error errors =>
    simp [conditionalRulesOf]
  | nil =>
    dsimp only [conditionalRulesOf]
    cases compileProgram registry program with
    | error failure => simp
    | ok document =>
      cases lowerThrough registry Stage.beforeConditions program with
      | error failure => simp
      | ok flat =>
        show c ∈ document.conditionalRules [] flat ↔ _
        rw [Document.mem_conditionalRules_iff]
        constructor
        · rintro ⟨before, target, name, tag, after, rfl, named, found⟩
          exact ⟨document, before, target, name, tag, after, rfl, rfl, named, found⟩
        · rintro ⟨_, before, target, name, tag, after, ⟨⟩, ⟨⟩, named, found⟩
          exact ⟨before, target, name, tag, after, rfl, named, found⟩

theorem ConditionalRule.lowered {registry : Registry} {source : String}
    (member : c ∈ conditionalRules registry source) :
    ∃ value condition,
      Conditions.lowerValue c.value = .ok value ∧
      Conditions.lowerCondition c.condition = .ok condition ∧
      Emit.conditionalRule value.value condition.value = .ok c.rule := by
  obtain ⟨document, before, target, name, tag, after, compiled, flattened, named, found⟩ :=
    mem_conditionalRules_iff.mp member
  obtain ⟨name', rule', value, condition, named', found', rest⟩ :=
    ruleAfter?_of_compile compiled flattened
  rw [named] at named'
  cases named'
  rw [found] at found'
  cases found'
  exact ⟨value, condition, rest⟩

/-- Two assignments have the same rule, and the condition of the first one fails in a runtime where
that of the second one holds. -/
def ConditionalRule.Mistaken (r : Runtime) (c c' : ConditionalRule) : Prop :=
  c.rule = c'.rule ∧ c.condition.value? r = some (.boolean false) ∧
    c'.condition.value? r = some (.boolean true)

instance (r : Runtime) (c c' : ConditionalRule) : Decidable (c.Mistaken r c') :=
  inferInstanceAs (Decidable (_ ∧ _))

end AutomationScript
