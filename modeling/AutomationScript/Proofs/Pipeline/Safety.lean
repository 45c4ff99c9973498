import AutomationScript.Proofs.Document.Statable
import AutomationScript.Proofs.Pipeline.Flat
import AutomationScript.Proofs.Pipeline.Forms
import AutomationScript.Registry.Builtin

/-!
# The one defect of compilation

Compilation stops for a defect in one case only: a list inside the key of a target is still there
after lists are resolved (`compile_eq_defect_iff`).
-/

namespace AutomationScript

variable {registry : Registry}
variable {program lowered : List Stmt}

/-- The check after a step finds nothing, unless the step resolves lists. -/
theorem runChecked_eq_run (stage : Stage) (notLists : stage ≠ .lists)
    (input : stage.Input registry program) :
    stage.runChecked registry program = stage.run registry program := by
  have yields := stage.yields_run input
  cases ran : stage.run registry program with
  | error failure =>
    rw [Stage.runChecked, ran]
    rfl
  | ok lowered =>
    rw [ran] at yields
    rw [runChecked_of_run ran, Stage.not_hasLeftover notLists yields]
    rfl

theorem yields_runChecked (stage : Stage) (notLists : stage ≠ .lists)
    (input : stage.Input registry program) :
    Yields (stage.Output registry) (stage.runChecked registry program) := by
  rw [runChecked_eq_run stage notLists input]
  exact stage.yields_run input

def Stage.afterLists : List Stage :=
  [.placeholders, .aliases, .families, .blocks, .conditions, .types, .chains]

theorem yields_afterLists {resolved : List Stmt} (output : Stage.lists.Output registry resolved) :
    Yields (Stage.chains.Output registry) (lowerThrough registry Stage.afterLists resolved) := by
  have inOrder : Stage.InOrder .placeholders Stage.afterLists .chains := by
    repeat first | exact .single _ | refine .cons (by decide) ?_
  refine (inOrder.yields (fun _ => True) (fun stage member _ input _ => ?_) output trivial).mono
    fun _ => And.left
  have notLists : stage ≠ .lists := by
    rintro rfl
    cases List.contains_iff_mem.mpr member
  exact (yields_runChecked stage notLists input).mono fun _ output => ⟨output, trivial⟩

variable {defect : Defect}

/-- From lists on, lowering stops for a defect exactly when a list is left. -/
theorem lowerThrough_lists_eq_defect_iff {filled : List Stmt}
    (input : Stage.lists.Input registry filled) :
    lowerThrough registry (.lists :: Stage.afterLists) filled = .error (.defect defect) ↔
      defect = .leftover .lists ∧ ∃ resolved, Stage.lists.run registry filled = .ok resolved ∧
        Stage.lists.hasLeftover resolved = true := by
  have yields := Stage.lists.yields_run input
  rw [lowerThrough]
  constructor
  · intro stopped
    cases ran : Stage.lists.run registry filled with
    | error failure =>
      rw [ran] at yields
      rw [Stage.runChecked, ran] at stopped
      cases failure with
      | refused diagnostic => cases stopped
      | defect other => exact yields.elim
    | ok resolved =>
      rw [ran] at yields
      cases left : Stage.lists.hasLeftover resolved with
      | true =>
        rw [runChecked_of_run ran, left] at stopped
        cases stopped
        exact ⟨rfl, resolved, rfl, left⟩
      | false =>
        rw [runChecked_of_run ran, left] at stopped
        exact absurd stopped ((yields_afterLists yields).noDefect defect)
  · rintro ⟨rfl, resolved, ran, left⟩
    rw [runChecked_of_run ran, left]
    rfl

theorem lowerProgram_eq_defect_iff (input : Stage.definitions.Input registry program) :
    lowerProgram registry program = .error (.defect defect) ↔
      defect = .leftover .lists ∧ ∃ expanded filled resolved,
        Stage.definitions.run registry program = .ok expanded ∧
        Stage.wildcards.run registry expanded = .ok filled ∧
        Stage.lists.run registry filled = .ok resolved ∧
        ∃ target value condition tag, Stmt.assign target value condition tag ∈ resolved ∧
          target.hasNode true Expr.isList = true := by
  have opened : lowerProgram registry program =
      Stage.definitions.run registry program >>= fun expanded =>
        Stage.wildcards.runChecked registry expanded >>= fun filled =>
          lowerThrough registry (.lists :: Stage.afterLists) filled := by
    rw [← runChecked_eq_run .definitions nofun input]
    rfl
  rw [opened, (Stage.definitions.yields_run input).bind_eq_defect_iff]
  constructor
  · rintro ⟨expanded, expandedRan, expandedOutput, stopped⟩
    have filledYields := yields_runChecked .wildcards nofun expandedOutput
    obtain ⟨filled, filledRan, filledOutput, stopped⟩ := filledYields.bind_eq_defect_iff.mp stopped
    obtain ⟨isLeftover, resolved, resolvedRan, left⟩ :=
      (lowerThrough_lists_eq_defect_iff filledOutput).mp stopped
    have resolvedOutput := (Stage.lists.yields_run filledOutput).result resolvedRan
    exact ⟨isLeftover, expanded, filled, resolved, expandedRan,
      (runChecked_eq_ok_iff.mp filledRan).1, resolvedRan,
      (Stage.hasLeftover_lists_iff resolvedOutput).mp left⟩
  · rintro ⟨isLeftover, expanded, filled, resolved, expandedRan, filledRan, resolvedRan, inTarget⟩
    have expandedOutput := (Stage.definitions.yields_run input).result expandedRan
    have filledOutput := (Stage.wildcards.yields_run expandedOutput).result filledRan
    have resolvedOutput := (Stage.lists.yields_run filledOutput).result resolvedRan
    refine ⟨expanded, expandedRan, expandedOutput, ?_⟩
    rw [runChecked_eq_run .wildcards nofun expandedOutput, filledRan]
    have left := (Stage.hasLeftover_lists_iff resolvedOutput).mpr inTarget
    exact (lowerThrough_lists_eq_defect_iff filledOutput).mpr
      ⟨isLeftover, resolved, resolvedRan, left⟩

/-! ## Compiling -/

theorem runStages_of_lowerThrough {stages : List Stage}
    (ran : lowerThrough registry stages program = .ok lowered) :
    runStages registry stages program = .ok lowered := by
  induction stages generalizing program with
  | nil =>
    exact ran
  | cons stage rest ih =>
    obtain ⟨next, nextRan, ran⟩ := bind_eq_ok_iff.mp ran
    exact runStages_cons_eq_ok_iff.mpr ⟨next, (runChecked_eq_ok_iff.mp nextRan).1, ih ran⟩

theorem isFinal_of_lowerProgram (input : Stage.definitions.Input registry program)
    (ran : lowerProgram registry program = .ok lowered) :
    ∀ s ∈ lowered, s.IsFinal (Families.Reference registry) := by
  have output := output_of_runStages input (runStages_of_lowerThrough ran)
  exact fun s member => Stmt.isFinal_of_flat (output s member)

theorem exists_emit (input : Stage.definitions.Input registry program)
    (ran : lowerProgram registry program = .ok lowered) : ∃ document, emit lowered = .ok document :=
  Emit.exists_statements (keysNamed_reference registry) (isFinal_of_lowerProgram input ran) .empty

theorem compileProgram_eq_defect_iff (input : Stage.definitions.Input registry program) :
    compileProgram registry program = .error (.defect defect) ↔
      lowerProgram registry program = .error (.defect defect) := by
  rw [compileProgram]
  cases ran : lowerProgram registry program with
  | error failure =>
    cases failure with
    | refused diagnostic =>
      constructor <;> intro impossible <;> cases impossible
    | defect found =>
      constructor <;> intro same <;> cases same <;> rfl
  | ok lowered =>
    obtain ⟨document, emitted⟩ := exists_emit input ran
    dsimp only
    rw [emitted]
    constructor <;> intro impossible <;> cases impossible

/-- Compilation stops for a defect exactly when the script is well formed, the steps up to lists
succeed, and a target of the resulting program still has a list. -/
theorem compile_eq_defect_iff (registry : Registry) (source : String) (defect : Defect) :
    compile registry source = .error (.defect defect) ↔
      (defect = .leftover .lists ∧ defect.message = "list survived the folds pass") ∧
      ∃ program expanded filled resolved,
        parse source = (program, []) ∧
        Stage.definitions.run registry program = .ok expanded ∧
        Stage.wildcards.run registry expanded = .ok filled ∧
        Stage.lists.run registry filled = .ok resolved ∧
        ∃ target value condition tag, Stmt.assign target value condition tag ∈ resolved ∧
          target.hasNode true Expr.isList = true := by
  have message : Defect.message (.leftover .lists) = "list survived the folds pass" := by
    decide +kernel
  rw [compile]
  generalize parsed : parse source = read
  obtain ⟨program, errors⟩ := read
  cases errors with
  | cons error rest =>
      constructor
      · intro impossible
        cases impossible
      · rintro ⟨_, _, _, _, _, impossible, _⟩
        cases impossible
  | nil =>
      have input := input_of_parse registry parsed
      dsimp only
      rw [compileProgram_eq_defect_iff input, lowerProgram_eq_defect_iff input]
      constructor
      · rintro ⟨rfl, expanded, filled, resolved, stopped⟩
        exact ⟨⟨rfl, message⟩, program, expanded, filled, resolved, rfl, stopped⟩
      · rintro ⟨⟨isLeftover, _⟩, _, expanded, filled, resolved, same, stopped⟩
        cases same
        exact ⟨isLeftover, expanded, filled, resolved, stopped⟩

example :
    compile Registry.builtin "Sell[Sell[Coal, Iron]] = ON" =
      .error (.defect (.leftover .lists)) := by
  decide +kernel

end AutomationScript
