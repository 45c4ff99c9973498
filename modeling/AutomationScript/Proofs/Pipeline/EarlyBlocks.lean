import AutomationScript.Proofs.Grammar.Chars
import AutomationScript.Proofs.Lowering.BlockOrder
import AutomationScript.Proofs.Pipeline.Flat
import AutomationScript.Proofs.Pipeline.Settled
import AutomationScript.Proofs.Pipeline.Unlocated
import AutomationScript.Registry.Builtin

/-!
# Blocks and inline conditions

A program that compiles can be flattened right after its definitions are expanded.  The flattened
program compiles to the same document and has the same lowered program (`compileProgram_flattened`).
-/

namespace AutomationScript

open List

def Stage.beforeBlocks : List Stage :=
  [.wildcards, .lists, .placeholders, .aliases, .families]

def Stage.afterBlocks : List Stage :=
  [.conditions, .types, .chains]

/-- All steps, with blocks flattened right after the definitions are expanded. -/
def Stage.blocksEarly : List Stage :=
  [.definitions, .blocks] ++ beforeBlocks ++ afterBlocks

/-! ## Programs that differ in locations only -/

section SamePlaces

variable {registry : Registry} {program program' : List Stmt}

theorem lowerThrough_of_unlocated_eq
    (same : program'.map Stmt.unlocated = program.map Stmt.unlocated) {stages : List Stage}
    {lowered : List Stmt} (ran : lowerThrough registry stages program = .ok lowered) :
    ∃ lowered', lowerThrough registry stages program' = .ok lowered' ∧
      lowered'.map Stmt.unlocated = lowered.map Stmt.unlocated := by
  have forgotten : unlocating (List.map Stmt.unlocated) (lowerThrough registry stages program') =
      .ok (lowered.map Stmt.unlocated) := by
    rw [← lowerThrough_unlocated, same, lowerThrough_unlocated, ran]
    rfl
  cases ran' : lowerThrough registry stages program' with
  | error failure =>
    rw [ran'] at forgotten
    cases forgotten
  | ok lowered' =>
    rw [ran'] at forgotten
    exact ⟨lowered', rfl, Except.ok.inj forgotten⟩

theorem hasLeftover_of_unlocated_eq
    (same : program'.map Stmt.unlocated = program.map Stmt.unlocated) (stage : Stage) :
    stage.hasLeftover program' = stage.hasLeftover program := by
  rw [← Stage.hasLeftover_unlocated, same, Stage.hasLeftover_unlocated]

theorem emit_of_unlocated_eq (same : program'.map Stmt.unlocated = program.map Stmt.unlocated) :
    emit program' = emit program := by
  rw [← emit_unlocated, same, emit_unlocated]

end SamePlaces

/-! ## What is left after blocks are flattened -/

theorem hasNode_nestedCondition {keys : Bool} {test : Expr → Bool}
    (plain : ∀ args loc, test (.compound .and args loc) = false) {blocks : List Expr}
    (clear : ∀ block ∈ blocks, block.hasNode keys test = false) {own : Option Expr}
    (ownClear : (own.map (Expr.hasNode keys test)).getD false = false) :
    ((nestedCondition blocks own).map (Expr.hasNode keys test)).getD false = false := by
  induction blocks with
  | nil => exact ownClear
  | cons block inner ih =>
    obtain ⟨blockClear, innerClear⟩ := forall_mem_cons.mp clear
    have restClear := ih innerClear
    rw [nestedCondition]
    cases nested : nestedCondition inner own with
    | none => exact blockClear
    | some rest =>
      rw [nested] at restClear
      change rest.hasNode keys test = false at restClear
      change Expr.hasNode keys test (.compound .and [block, rest] _) = false
      rw [Expr.hasNode, plain, Expr.anyHasNode, Expr.anyHasNode, Expr.anyHasNode, blockClear,
        restClear]
      rfl

variable {program flat : List Stmt}

theorem any_hasNode_flatten {targets keys : Bool} {test : Expr → Bool}
    (plain : ∀ args loc, test (.compound .and args loc) = false)
    (ran : Blocks.lower program = .ok flat)
    (clear : program.any (Stmt.hasNode targets keys test) = false) :
    flat.any (Stmt.hasNode targets keys test) = false := by
  have each : ∀ s ∈ program, s.hasNode targets keys test = false := fun s member =>
    Bool.eq_false_iff.mpr (any_eq_false.mp clear s member)
  refine any_eq_false.mpr fun t member => Bool.eq_false_iff.mp ?_
  obtain ⟨s, inProgram, _, conditions, rfl, fromBlocks⟩ := Blocks.exists_of_mem_flatten ran member
  have conditionsClear : ∀ condition ∈ conditions, condition.hasNode keys test = false := by
    intro condition isOne
    rcases fromBlocks condition isOne with impossible | ⟨tag, opens⟩
    · cases impossible
    · exact each _ opens
  have here := each s inProgram
  cases s with
  | assign target value own tag =>
    simp only [Stmt.hasNode, Bool.or_eq_false_iff] at here
    obtain ⟨⟨targetClear, valueClear⟩, ownClear⟩ := here
    simp only [Stmt.governed, Stmt.hasNode, targetClear, valueClear, Bool.false_or]
    exact hasNode_nestedCondition plain conditionsClear ownClear
  | _ => exact here

theorem Stage.hasLeftover_flatten {stage : Stage} (early : stage ∈ Stage.beforeBlocks)
    (ran : Blocks.lower program = .ok flat) (clear : stage.hasLeftover program = false) :
    stage.hasLeftover flat = false := by
  cases stage with
  | wildcards => exact any_hasNode_flatten (fun _ _ => rfl) ran clear
  | lists => exact any_hasNode_flatten (fun _ _ => rfl) ran clear
  | placeholders => exact any_hasNode_flatten (fun _ _ => rfl) ran clear
  | aliases => exact any_hasNode_flatten (fun _ _ => rfl) ran clear
  | families => rfl
  | _ => simp [Stage.beforeBlocks] at early

/-! ## Steps on flat programs -/

/-- A program of assignments and triggers. -/
abbrev IsFlat (program : List Stmt) : Prop :=
  ∀ s ∈ program, s.Flat (fun _ _ _ => True) fun _ _ => True

theorem Stmt.flat_iff {s : Stmt} :
    s.Flat (fun _ _ _ => True) (fun _ _ => True) ↔
      s.isBlockMark = false ∧ s.isDefinitional = false := by
  constructor
  · intro flat
    cases flat <;> exact ⟨rfl, rfl⟩
  · rintro ⟨noMark, noDefinition⟩
    cases s with
    | assign target value own tag => exact .assign target value own tag True.intro
    | trigger awaited actions tag => exact .trigger awaited actions tag True.intro
    | openBlock condition tag => cases noMark
    | closeBlock tag => cases noMark
    | _ => cases noDefinition

theorem IsFlat.of_lower (ran : Blocks.lower program = .ok flat) : IsFlat flat := by
  intro t member
  obtain ⟨noDefinition, _⟩ := Blocks.closed_of_flatten ran
  obtain ⟨s, inProgram, noMark, conditions, rfl, _⟩ := Blocks.exists_of_mem_flatten ran member
  have sPlain := noDefinition s inProgram
  apply Stmt.flat_iff.mpr
  cases s with
  | assign target value own tag => exact ⟨rfl, rfl⟩
  | _ => exact ⟨noMark, sPlain⟩

theorem IsFlat.of_unlocated_eq {program' : List Stmt} (flat : IsFlat program)
    (same : program'.map Stmt.unlocated = program.map Stmt.unlocated) : IsFlat program' := by
  have forms (s : Stmt) : s.unlocated.isBlockMark = s.isBlockMark ∧
      s.unlocated.isDefinitional = s.isDefinitional := by
    cases s <;> exact ⟨rfl, rfl⟩
  intro s member
  have inImage : s.unlocated ∈ program.map Stmt.unlocated := by
    rw [← same]
    exact mem_map_of_mem member
  obtain ⟨other, inProgram, equal⟩ := mem_map.mp inImage
  apply Stmt.flat_iff.mpr
  rw [← (forms s).1, ← (forms s).2, ← equal, (forms other).1, (forms other).2]
  exact Stmt.flat_iff.mp (flat other inProgram)

theorem IsFlat.hasLeftover_blocks (flat : IsFlat program) :
    Stage.blocks.hasLeftover program = false := by
  refine any_eq_false.mpr fun s member => ?_
  rw [(Stmt.flat_iff.mp (flat s member)).1]
  exact Bool.false_ne_true

theorem IsFlat.runChecked_blocks (flat : IsFlat program) :
    Stage.blocks.runChecked registry program = .ok program :=
  runChecked_eq_ok_iff.mpr ⟨flatten_flat flat, flat.hasLeftover_blocks⟩

theorem IsFlat.runChecked_definitions (flat : IsFlat program) :
    Stage.definitions.runChecked registry program = .ok program := by
  apply runChecked_eq_ok_iff.mpr
  refine ⟨lower_definitions_flat registry flat, any_eq_false.mpr fun s member => ?_⟩
  rw [(Stmt.flat_iff.mp (flat s member)).2]
  exact Bool.false_ne_true

/-! ## Flattening first -/

variable {registry : Registry}

variable {lowered flat' : List Stmt}

theorem Stage.run_flatten {stage : Stage} (early : stage ∈ Stage.beforeBlocks)
    (ran : stage.run registry program = .ok lowered)
    (flattened : Blocks.lower lowered = .ok flat') :
    ∃ flat lowered', Blocks.lower program = .ok flat ∧ stage.run registry flat = .ok lowered' ∧
      lowered'.map Stmt.unlocated = flat'.map Stmt.unlocated := by
  cases stage with
  | wildcards => exact (Wildcard.distributes registry).flatten_lowerEach .nil ran flattened
  | lists => exact (Lists.distributes registry).flatten_lowerEach .nil ran flattened
  | placeholders => exact Placeholder.distributes.flatten_lowerEach .nil ran flattened
  | aliases => exact (Alias.distributes registry).flatten_lowerEach .nil ran flattened
  | families => exact (Families.distributes registry).flatten_lowerEach .nil ran flattened
  | _ => simp [Stage.beforeBlocks] at early

theorem lowerThrough_flatten {stages : List Stage}
    (early : ∀ stage ∈ stages, stage ∈ Stage.beforeBlocks)
    (ran : lowerThrough registry stages program = .ok lowered)
    (flattened : Blocks.lower lowered = .ok flat') :
    ∃ flat lowered', Blocks.lower program = .ok flat ∧
      lowerThrough registry stages flat = .ok lowered' ∧
      lowered'.map Stmt.unlocated = flat'.map Stmt.unlocated := by
  induction stages generalizing program with
  | nil =>
    cases ran
    exact ⟨flat', flat', flattened, rfl, rfl⟩
  | cons stage rest ih =>
    obtain ⟨stageEarly, restEarly⟩ := forall_mem_cons.mp early
    obtain ⟨middle, stageRan, restRan⟩ := bind_eq_ok_iff.mp ran
    obtain ⟨stageRan, clear⟩ := runChecked_eq_ok_iff.mp stageRan
    obtain ⟨middleFlat, middleLowered, middleFlattened, middleRan, middleSame⟩ :=
      ih restEarly restRan
    obtain ⟨flat, early', flatRan, earlyRan, earlySame⟩ :=
      Stage.run_flatten stageEarly stageRan middleFlattened
    -- The step leaves nothing behind here either, since flattening brings nothing back.
    have flatClear : stage.hasLeftover early' = false := by
      rw [hasLeftover_of_unlocated_eq earlySame]
      exact Stage.hasLeftover_flatten stageEarly middleFlattened clear
    obtain ⟨lowered', loweredRan, loweredSame⟩ := lowerThrough_of_unlocated_eq earlySame middleRan
    refine ⟨flat, lowered', flatRan, ?_, loweredSame.trans middleSame⟩
    apply bind_eq_ok_iff.mpr
    exact ⟨early', runChecked_eq_ok_iff.mpr ⟨earlyRan, flatClear⟩, loweredRan⟩

/-- The steps of a program that is lowered, with its blocks flattened second: `expanded` has no
definitions, `flat` no blocks either, and the rest of the steps lead over `early` to `finished`. -/
structure LoweredEarly (registry : Registry) (program expanded flat early finished : List Stmt) :
    Prop where
  definitions : Stage.definitions.runChecked registry program = .ok expanded
  blocks : Stage.blocks.runChecked registry expanded = .ok flat
  resolved : lowerThrough registry Stage.beforeBlocks flat = .ok early
  flatEarly : IsFlat early
  stated : lowerThrough registry Stage.afterBlocks early = .ok finished

theorem exists_loweredEarly (ran : lowerProgram registry program = .ok lowered) :
    ∃ expanded flat early finished, LoweredEarly registry program expanded flat early finished ∧
      finished.map Stmt.unlocated = lowered.map Stmt.unlocated := by
  obtain ⟨expanded, expandedRan, ran⟩ := bind_eq_ok_iff.mp ran
  have inOrder : lowerThrough registry (Stage.beforeBlocks ++ .blocks :: Stage.afterBlocks)
      expanded = .ok lowered := ran
  rw [lowerThrough_append] at inOrder
  obtain ⟨resolved, resolvedRan, inOrder⟩ := bind_eq_ok_iff.mp inOrder
  obtain ⟨lateFlat, lateRan, statedRan⟩ := bind_eq_ok_iff.mp inOrder
  have lateFlattened := (runChecked_eq_ok_iff.mp lateRan).1
  obtain ⟨flat, early, flatRan, earlyRan, earlySame⟩ :=
    lowerThrough_flatten (fun _ member => member) resolvedRan lateFlattened
  obtain ⟨finished, finishedRan, finishedSame⟩ := lowerThrough_of_unlocated_eq earlySame statedRan
  have isFlat := IsFlat.of_lower flatRan
  refine ⟨expanded, flat, early, finished, ?_, finishedSame⟩
  exact {
    definitions := expandedRan
    blocks := runChecked_eq_ok_iff.mpr ⟨flatRan, isFlat.hasLeftover_blocks⟩
    resolved := earlyRan
    flatEarly := (IsFlat.of_lower lateFlattened).of_unlocated_eq earlySame
    stated := finishedRan }

/-- A program that compiles compiles to the same document after its definitions are expanded and
its blocks are flattened, with the conditions of the blocks standing at the assignments.  The
lowered programs are the same, but for locations, if blocks are flattened right after definitions
are expanded. -/
theorem compileProgram_flattened
    {program : List Stmt} {document : Document}
    (compiled : compileProgram registry program = .ok document) :
    (∃ expanded, Definition.lower registry program = .ok expanded ∧
        compileProgram registry (flattened expanded) = .ok document) ∧
      ∃ lowered early, lowerProgram registry program = .ok lowered ∧
        lowerThrough registry Stage.blocksEarly program = .ok early ∧
        early.map Stmt.unlocated = lowered.map Stmt.unlocated := by
  obtain ⟨lowered, ran, emitted⟩ := compileProgram_eq_ok_iff.mp compiled
  obtain ⟨expanded, flat, early, finished, steps, same⟩ := exists_loweredEarly ran
  have flatRan := (runChecked_eq_ok_iff.mp steps.blocks).1
  have isFlat := IsFlat.of_lower flatRan
  constructor
  · refine ⟨expanded, (runChecked_eq_ok_iff.mp steps.definitions).1, ?_⟩
    rw [← Blocks.eq_flattened_of_lower flatRan]
    apply compileProgram_eq_ok_iff.mpr
    refine ⟨finished, ?_, ?_⟩
    · apply bind_eq_ok_iff.mpr
      refine ⟨flat, isFlat.runChecked_definitions, ?_⟩
      change lowerThrough registry (Stage.beforeBlocks ++ .blocks :: Stage.afterBlocks) flat = _
      rw [lowerThrough_append, steps.resolved]
      change lowerThrough registry (.blocks :: Stage.afterBlocks) early = _
      apply bind_eq_ok_iff.mpr
      exact ⟨early, steps.flatEarly.runChecked_blocks, steps.stated⟩
    · rw [emit_of_unlocated_eq same]
      exact emitted
  · refine ⟨lowered, finished, ran, ?_, same⟩
    apply bind_eq_ok_iff.mpr
    refine ⟨expanded, steps.definitions, ?_⟩
    apply bind_eq_ok_iff.mpr
    refine ⟨flat, steps.blocks, ?_⟩
    change lowerThrough registry (Stage.beforeBlocks ++ Stage.afterBlocks) flat = _
    rw [lowerThrough_append, steps.resolved]
    exact steps.stated

/-- A definition, a list and placeholders in the conditions of nested blocks and of assignments. -/
theorem compileProgram_flattened_nestedBlocks :
    ∃ program document,
      program = (parse ("def Rich = Citizens > 5\nif Rich then\nif Sell[Coal or Iron] then\n" ++
        "Sell[Coal, Iron] = ON if ResourceQuantity[...] > 5\nelse\nautoJobs = OFF\nend\nend\n" ++
        "Build city-bank when Built city-mill")).1 ∧
      compileProgram Registry.builtin program = .ok document ∧
      document.overrides.entries.map (fun entry => (entry.1, entry.2.length)) =
        [("sellCoal", 1), ("sellIron", 1), ("autoJobs", 1)] ∧
      (∃ expanded, Definition.lower Registry.builtin program = .ok expanded ∧
        compileProgram Registry.builtin (flattened expanded) = .ok document) ∧
      ∃ lowered early, lowerProgram Registry.builtin program = .ok lowered ∧
        lowerThrough Registry.builtin Stage.blocksEarly program = .ok early ∧
        early.map Stmt.unlocated = lowered.map Stmt.unlocated := by
  generalize read : (parse ("def Rich = Citizens > 5\nif Rich then\nif Sell[Coal or Iron] then\n" ++
    "Sell[Coal, Iron] = ON if ResourceQuantity[...] > 5\nelse\nautoJobs = OFF\nend\nend\n" ++
    "Build city-bank when Built city-mill")).1 = program
  have checked : (compileProgram Registry.builtin program).toOption.map (fun document =>
      document.overrides.entries.map fun entry => (entry.1, entry.2.length)) =
      some [("sellCoal", 1), ("sellIron", 1), ("autoJobs", 1)] := by
    rw [← read]
    simp only [parse_eq_parseChars, String.toList_append]
    decide +kernel
  obtain ⟨document, compiled, overrides⟩ := exists_ok_of_toOption_map checked
  exact ⟨program, document, rfl, compiled, overrides, compileProgram_flattened compiled⟩

end AutomationScript
