import AutomationScript.Pipeline.Compile
import AutomationScript.Proofs.Document.Rules

/-!
# Flat programs

Before conditions are lowered, a program has assignments and triggers only.  `ruleAfter?_of_compile`
follows an assignment under a condition from there to its rule in the document.
-/

namespace AutomationScript

open List

variable {registry : Registry} {program lowered : List Stmt} {document : Document}

theorem runChecked_eq_ok_iff {stage : Stage} :
    stage.runChecked registry program = .ok lowered ↔
      stage.run registry program = .ok lowered ∧ stage.hasLeftover lowered = false := by
  rw [Stage.runChecked, bind_eq_ok_iff]
  constructor
  · rintro ⟨found, ran, checked⟩
    rw [Stage.check] at checked
    cases left : stage.hasLeftover found with
    | true =>
      rw [left] at checked
      cases checked
    | false =>
      rw [left] at checked
      cases checked
      exact ⟨ran, left⟩
  · rintro ⟨ran, left⟩
    refine ⟨lowered, ran, ?_⟩
    rw [Stage.check, left]
    rfl

theorem runChecked_of_run {stage : Stage} (ran : stage.run registry program = .ok lowered) :
    stage.runChecked registry program =
      if stage.hasLeftover lowered then .error (.defect (.leftover stage)) else .ok lowered := by
  cases left : stage.hasLeftover lowered with
  | false => exact runChecked_eq_ok_iff.mpr ⟨ran, left⟩
  | true =>
    have found : stage.check lowered = .error (.leftover stage) := by
      rw [Stage.check, left]
      rfl
    rw [Stage.runChecked, ran]
    dsimp only [bind, Except.bind]
    rw [found]
    rfl

theorem Stage.hasLeftover_append (stage : Stage) (front back : List Stmt) :
    stage.hasLeftover (front ++ back) = (stage.hasLeftover front || stage.hasLeftover back) := by
  cases stage <;> simp [hasLeftover]

theorem lowerThrough_append (registry : Registry) (front back : List Stage) (program : List Stmt) :
    lowerThrough registry (front ++ back) program =
      (lowerThrough registry front program >>= lowerThrough registry back) := by
  induction front generalizing program with
  | nil =>
    rfl
  | cons stage rest ih =>
    rw [cons_append, lowerThrough, lowerThrough]
    cases stage.runChecked registry program with
    | error failure => rfl
    | ok lowered => exact ih lowered

theorem compileProgram_eq_ok_iff :
    compileProgram registry program = .ok document ↔
      ∃ lowered, lowerProgram registry program = .ok lowered ∧ emit lowered = .ok document := by
  rw [compileProgram]
  cases lowerProgram registry program with
  | error failure => simp
  | ok lowered => cases emitted : emit lowered <;> simp [emitted]

/-- A script has a document when it is well formed, all steps succeed and the lowered program can
be stated. -/
theorem compile_eq_ok_iff {source : String} :
    compile registry source = .ok document ↔
      ∃ program lowered, parse source = (program, []) ∧
        lowerProgram registry program = .ok lowered ∧ emit lowered = .ok document := by
  rw [compile]
  obtain ⟨program, errors⟩ := parse source
  cases errors with
  | cons error rest =>
    simp
  | nil =>
    rw [compileProgram_eq_ok_iff]
    simp

def Stage.beforeConditions : List Stage :=
  [.definitions, .wildcards, .lists, .placeholders, .aliases, .families, .blocks]

/-- The program of a script as it stands right before its conditions are lowered. -/
def flatProgram (registry : Registry) (source : String) : Lowering (List Stmt) :=
  lowerThrough registry Stage.beforeConditions (parse source).1

/-- The steps after the flat program: its values and conditions are lowered, the types fit, and
its triggers are split. -/
theorem lowered_of_flat {flat : List Stmt}
    (flattened : lowerThrough registry Stage.beforeConditions program = .ok flat)
    (ran : lowerProgram registry program = .ok lowered) :
    ∃ stated, Conditions.lower flat = .ok stated ∧ Types.checkAll registry stated = .ok () ∧
      Chains.lower registry stated = .ok lowered := by
  have split : Stage.all = Stage.beforeConditions ++ [.conditions, .types, .chains] := rfl
  rw [lowerProgram, split, lowerThrough_append, flattened] at ran
  change lowerThrough registry [.conditions, .types, .chains] flat = .ok lowered at ran
  obtain ⟨stated, conditionsRan, ran⟩ := bind_eq_ok_iff.mp ran
  obtain ⟨typed, typesRan, ran⟩ := bind_eq_ok_iff.mp ran
  obtain ⟨chained, chainsRan, ran⟩ := bind_eq_ok_iff.mp ran
  cases ran
  have typesChecked := (runChecked_eq_ok_iff.mp typesRan).1
  obtain ⟨⟨⟩, checked, rfl⟩ := bind_pure_eq_ok_iff.mp typesChecked
  exact ⟨stated, (runChecked_eq_ok_iff.mp conditionsRan).1, checked,
    (runChecked_eq_ok_iff.mp chainsRan).1⟩

/-! ## Assignments through the last steps -/

theorem countP_lowerEach {lower : Stmt → Lowering (List Stmt)} {test : Stmt → Bool}
    (step : ∀ s part, lower s = .ok part → part.countP test = if test s then 1 else 0)
    (ran : lowerEach lower program = .ok lowered) : lowered.countP test = program.countP test := by
  induction program generalizing lowered with
  | nil =>
    cases ran
    rfl
  | cons s rest ih =>
    obtain ⟨first, others, firstLowered, restLowered, rfl⟩ := lowerEach_cons_eq_ok_iff.mp ran
    rw [countP_append, step s first firstLowered, ih restLowered, countP_cons,
      Nat.add_comm]

theorem isConstant_lowerValue {value : Expr} {lowered : Revised Expr}
    (ran : Conditions.lowerValue value = .ok lowered) :
    lowered.value.isConstant = value.isConstant := by
  cases value with
  | string value loc =>
    cases ran
    rfl
  | number value loc =>
    cases ran
    rfl
  | boolean value loc =>
    cases ran
    rfl
  | eval text loc =>
    cases ran
    rfl
  | _ =>
    obtain ⟨text, _, rfl⟩ := bind_pure_eq_ok_iff.mp ran
    rfl

theorem isSome_reviseOption {revise : Expr → Lowering (Revised Expr)} {e : Option Expr}
    {revised : Revised (Option Expr)} (ran : reviseOption revise e = .ok revised) :
    revised.value.isSome = e.isSome := by
  cases e with
  | none =>
    cases ran
    rfl
  | some e =>
    obtain ⟨found, _, rfl⟩ := bind_pure_eq_ok_iff.mp ran
    rfl

theorem countP_overrides_lowerConditions (name : String) (s : Stmt) (part : List Stmt)
    (ran : Conditions.lowerStmt s = .ok part) :
    part.countP (Stmt.overrides name) = if s.overrides name then 1 else 0 := by
  cases s with
  | assign target value condition tag =>
    obtain ⟨loweredValue, valueLowered, continued⟩ := bind_eq_ok_iff.mp ran
    obtain ⟨loweredCondition, conditionLowered, rfl⟩ := bind_pure_eq_ok_iff.mp continued
    have same : (Stmt.ofParts (.kept target) loweredValue loweredCondition tag).overrides name =
        (Stmt.assign target value condition tag).overrides name := by
      simp only [Stmt.ofParts, Stmt.overrides, Revised.kept, isConstant_lowerValue valueLowered,
        isSome_reviseOption conditionLowered]
    simp [countP_cons, same]
  | _ =>
    cases ran
    simp [countP_cons]

theorem countP_overrides_later {tag : Tag} {actions : List TriggerArg} {part : List Stmt}
    (name : String) (ran : Chains.later registry tag actions = .ok part) :
    part.countP (Stmt.overrides name) = 0 := by
  induction actions generalizing part with
  | nil =>
    cases ran
    rfl
  | cons action rest ih =>
    obtain ⟨normalized, _, continued⟩ := bind_eq_ok_iff.mp ran
    obtain ⟨others, restSplit, rfl⟩ := bind_pure_eq_ok_iff.mp continued
    rw [countP_cons, ih restSplit]
    rfl

theorem countP_overrides_lowerChains (registry : Registry) (name : String) (s : Stmt)
    (part : List Stmt) (ran : Chains.lowerStmt registry s = .ok part) :
    part.countP (Stmt.overrides name) = if s.overrides name then 1 else 0 := by
  cases s with
  | trigger condition actions tag =>
    obtain ⟨normalized, _, continued⟩ := bind_eq_ok_iff.mp ran
    cases actions with
    | nil =>
      cases continued
      rfl
    | cons action rest =>
      obtain ⟨first, _, continued⟩ := bind_eq_ok_iff.mp continued
      obtain ⟨others, restSplit, rfl⟩ := bind_pure_eq_ok_iff.mp continued
      rw [countP_cons, countP_overrides_later name restSplit]
      rfl
  | _ =>
    cases ran
    simp [countP_cons]

/-- An assignment under a condition in the flat program of a script has a rule in the document, at
its place among the rules of its setting, and the rule states the lowered value and condition. -/
theorem ruleAfter?_of_compile {source : String} {before after : List Stmt}
    {target value condition : Expr} {tag : Tag}
    (compiled : compile registry source = .ok document)
    (flattened : flatProgram registry source =
      .ok (before ++ .assign target value (some condition) tag :: after)) :
    ∃ name rule loweredValue loweredCondition,
      target.name? = some name ∧ document.ruleAfter? before name = some rule ∧
      Conditions.lowerValue value = .ok loweredValue ∧
      Conditions.lowerCondition condition = .ok loweredCondition ∧
      Emit.conditionalRule loweredValue.value loweredCondition.value = .ok rule := by
  obtain ⟨program, lowered, parsed, ran, emitted⟩ := compile_eq_ok_iff.mp compiled
  rw [flatProgram, parsed] at flattened
  obtain ⟨stated, conditionsRan, _, chainsRan⟩ := lowered_of_flat flattened ran
  obtain ⟨front, rest, frontStated, restStated, rfl⟩ :=
    lowerEach_append_eq_ok_iff.mp conditionsRan
  obtain ⟨here, back, hereStated, backStated, rfl⟩ := lowerEach_cons_eq_ok_iff.mp restStated
  obtain ⟨loweredValue, valueLowered, continued⟩ := bind_eq_ok_iff.mp hereStated
  obtain ⟨_, optionLowered, rfl⟩ := bind_pure_eq_ok_iff.mp continued
  obtain ⟨loweredCondition, conditionLowered, rfl⟩ := bind_pure_eq_ok_iff.mp optionLowered
  obtain ⟨frontSplit, restSplit, frontChained, restChained, rfl⟩ :=
    lowerEach_append_eq_ok_iff.mp chainsRan
  obtain ⟨_, backSplit, hereChained, backChained, rfl⟩ := lowerEach_cons_eq_ok_iff.mp restChained
  cases hereChained
  obtain ⟨name, rule, named, found, ruled⟩ := ruleAfter?_of_emit emitted
  refine ⟨name, rule, loweredValue, loweredCondition, named, ?_, valueLowered, conditionLowered,
    ruled⟩
  -- The place of the rule is counted in the lowered program; the count is that of the flat one.
  rw [Document.ruleAfter?, countP_lowerEach (countP_overrides_lowerChains registry name)
    frontChained, countP_lowerEach (countP_overrides_lowerConditions name) frontStated] at found
  exact found

end AutomationScript
