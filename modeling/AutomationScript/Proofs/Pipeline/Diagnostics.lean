import AutomationScript.Document.Json
import AutomationScript.Proofs.Grammar.Placed
import AutomationScript.Proofs.Pipeline.Agreement
import AutomationScript.Registry.Builtin

/-!
# Diagnostics of the compiler

The parser gives a placed program, which matches itself with known places only.  So every diagnostic
points at a stretch of the script, also if it was found in a node that no one wrote.
-/

namespace AutomationScript

variable {P : Location → Prop} {registry : Registry}

/-! ## Refusals -/

variable {closed : UnionClosed P} {program : List Stmt}

theorem placed_of_lowerProgram_refused (placed : SameProgram (.placed P closed) program program)
    {reason : Diagnostic} (refused : lowerProgram registry program = .error (.refused reason)) :
    reason.Placed Cause.IsSemantic P := by
  have matched : Stage.definitions.Matched (.placed P closed) registry (fun _ _ => True) program
      program := matched_of_sameProgram placed
  have agree := agree_lowerProgram False.elim matched
  rw [refused] at agree
  rcases agree with impossible | ⟨semantic, _, _, known⟩
  · exact impossible.elim
  · exact ⟨semantic, known⟩

theorem exists_of_compileProgram_refused (placed : SameProgram (.placed P closed) program program)
    {errors : List Diagnostic}
    (refused : compileProgram registry program = .error (.refused errors)) :
    ∃ error, errors = [error] ∧ error.Placed Cause.IsSemantic P := by
  unfold compileProgram at refused
  cases lowered : lowerProgram registry program with
  | error failure =>
    rw [lowered] at refused
    cases failure with
    | refused reason =>
      cases refused
      exact ⟨reason, rfl, placed_of_lowerProgram_refused placed lowered⟩
    | defect found => cases refused
  | ok flat =>
    rw [lowered] at refused
    dsimp only at refused
    cases emitted : emit flat with
    | ok document =>
      rw [emitted] at refused
      cases refused
    | error defect =>
      rw [emitted] at refused
      cases refused

/-- A script is refused for errors of one kind, all of them at places, and at least for one. -/
theorem placed_of_compile_refused {source : String} {errors : List Diagnostic}
    (refused : compile registry source = .error (.refused errors)) :
    errors ≠ [] ∧
      ((∀ error ∈ errors, error.Placed Cause.IsLexical (Location.Inside source.toList)) ∨
        (∀ error ∈ errors, error.Placed Cause.IsGrammar (Location.Inside source.toList)) ∨
        ∃ error, errors = [error] ∧
          error.Placed Cause.IsSemantic (Location.Inside source.toList)) := by
  have placed := placed_parse source
  unfold compile at refused
  generalize parse source = read at placed refused
  obtain ⟨program, found⟩ := read
  -- only a script without errors of form reaches the lowering steps
  cases found with
  | nil =>
    have one := exists_of_compileProgram_refused placed.1 refused
    refine ⟨?_, .inr (.inr one)⟩
    obtain ⟨error, rfl, _⟩ := one
    exact List.cons_ne_nil _ _
  | cons first rest =>
    cases refused
    refine ⟨List.cons_ne_nil _ _, ?_⟩
    rcases placed.2 with lexical | grammar
    · exact .inl lexical
    · exact .inr (.inl grammar)

/-- The diagnostic is located between two positions of the text, the first not after the second;
both are in lines that the text has, and in columns that these lines have. -/
def Diagnostic.Located (text : List Char) (error : Diagnostic) : Prop :=
  ∃ loc, error.location = some loc ∧ loc.Inside text ∧
    loc.start ≤ loc.stop ∧ loc.start.Within text ∧ loc.stop.Within text

theorem Diagnostic.Placed.located {kind : Cause → Prop} {text : List Char} {error : Diagnostic}
    (placed : error.Placed kind (Location.Inside text)) : error.Located text := by
  obtain ⟨loc, known, inside⟩ := placed.location
  refine ⟨loc, known, inside, ?_⟩
  obtain ⟨first, last, ordered, _, rfl⟩ := inside
  exact ⟨monotone_positionAt text ordered, within_positionAt text first, within_positionAt text last⟩

/-- The output has a document or errors.  The errors are all lexical, all grammatical or a single
one in the meaning of the script, and each of them is located. -/
theorem located_of_compileOutput
    (source : String) (output : Output) (ran : compileOutput registry source = .ok output) :
    (output.document.isSome ↔ output.errors = []) ∧
      (output.document = none →
        (∀ error ∈ output.errors, error.cause.IsLexical) ∨
        (∀ error ∈ output.errors, error.cause.IsGrammar) ∨
        ∃ error, output.errors = [error] ∧ error.cause.IsSemantic) ∧
      ∀ error ∈ output.errors, error.Located source.toList := by
  unfold compileOutput at ran
  cases compiled : compile registry source with
  | ok document =>
      rw [compiled] at ran
      cases ran
      have present : (Output.ofDocument document).document ≠ none := Option.some_ne_none document
      exact ⟨iff_of_true rfl rfl, fun absent => absurd absent present, List.forall_mem_nil _⟩
  | error failure =>
      rw [compiled] at ran
      cases failure with
      | defect found => cases ran
      | refused errors =>
          cases ran
          obtain ⟨notEmpty, kinds⟩ := placed_of_compile_refused compiled
          refine ⟨iff_of_false Bool.false_ne_true notEmpty, ?_⟩
          change (none = none → _) ∧ ∀ error ∈ errors, _
          rcases kinds with lexical | grammar | ⟨error, rfl, semantic⟩
          · refine ⟨fun _ => .inl ?_, fun error member => (lexical error member).located⟩
            exact fun error member => (lexical error member).cause
          · refine ⟨fun _ => .inr (.inl ?_), fun error member => (grammar error member).located⟩
            exact fun error member => (grammar error member).cause
          · refine ⟨fun _ => .inr (.inr ⟨error, rfl, semantic.cause⟩), ?_⟩
            exact List.forall_mem_singleton.mpr semantic.located

/-- The settings come from a wildcard in the `else` of a block.  The error is in the key that took
the place of a placeholder, and is located there. -/
theorem located_of_compileOutput_placeholder :
    ∃ source output error loc, source = "if Citizens > 5 then\nautoJobs = ON\nelse\n" ++
        "Sell[*] = ON if BuildingCount[...] > 5\nend" ∧
      compileOutput Registry.builtin source = .ok output ∧
      output.document = none ∧ output.errors = [error] ∧
      error.cause = .semantic (.invalidValue "Food" "building") ∧ error.location = some loc ∧
      loc = ⟨⟨4, 31⟩, ⟨4, 34⟩⟩ ∧ error.Located source.toList := by
  let source := "if Citizens > 5 then\nautoJobs = ON\nelse\n" ++
    "Sell[*] = ON if BuildingCount[...] > 5\nend"
  let loc : Location := ⟨⟨4, 31⟩, ⟨4, 34⟩⟩
  let error : Diagnostic := ⟨.semantic (.invalidValue "Food" "building"), some loc⟩
  have compiled : compile Registry.builtin source = .error (.refused [error]) := by
    decide +kernel
  have ran : compileOutput Registry.builtin source = .ok (.ofErrors [error]) := by
    rw [compileOutput, compiled]
  obtain ⟨_, _, located⟩ := located_of_compileOutput source _ ran
  exact ⟨source, _, error, loc, rfl, ran, rfl, rfl, rfl, rfl, rfl,
    located error (List.mem_singleton_self error)⟩

end AutomationScript
