import AutomationScript.Pipeline.Trace
import AutomationScript.Proofs.Grammar.Chars
import AutomationScript.Proofs.Pipeline.Forms
import AutomationScript.Proofs.Pipeline.Settled
import AutomationScript.Proofs.Registry.Builtin

/-!
# Lowering again

Under a stable registry a lowered program is settled, so that every step, run on it once more,
hands on each of its statements.
-/

namespace AutomationScript

open List

variable {registry : Registry}

/-! ## Lowered programs are settled -/

theorem settled_of_reference (stable : registry.Stable) {base : Ident} {key : Expr} {type : Ty}
    (isReference : Families.Reference registry base key) (notEval : base.name ≠ evalName)
    (typed : Types.subscriptType registry base key = .ok type) : registry.Settled base key := by
  obtain ⟨word, loc, rfl, kind⟩ := isReference.named
  refine ⟨?_, word, loc, rfl, ?_, ?_⟩
  · rcases isReference.noFamily with noFamily | isCurrent
    · exact noFamily
    · rw [isCurrent]
      exact stable.noCurrentFamily
  · intro ofSettings
    rw [Types.subscriptType, if_neg notEval] at typed
    dsimp only [Expr.name?] at typed
    rw [if_pos ofSettings] at typed
    cases found : registry.settingType? word.name with
    | none =>
      rw [found] at typed
      cases typed
    | some declared => rfl
  · intro notSettings
    have knows : registry.Knows base.name word.name := by
      rcases kind with isEval | ⟨ofSettings, _⟩ | knows
      · exact absurd isEval notEval
      · exact absurd ofSettings (Bool.eq_false_iff.mp notSettings)
      · exact knows
    rw [Types.subscriptType, if_neg notEval] at typed
    dsimp only [Expr.name?] at typed
    rw [notSettings, if_neg Bool.false_ne_true] at typed
    cases found : registry.category? base.name with
    | none =>
      rw [found] at typed
      cases typed
    | some category => exact ⟨category, rfl, Alias.canonicalKey?_of_knows stable found knows⟩

theorem settled_operand (stable : registry.Stable) {e : Expr}
    (isOperand : e.IsOperand (Families.Reference registry)) {type : Ty}
    (typed : Types.typeOf registry e = .ok type) : e.IsOperand registry.Settled := by
  cases isOperand with
  | stated _ stated => exact .stated e stated
  | subscript base key loc notEval isReference =>
    exact .subscript base key loc notEval (settled_of_reference stable isReference notEval typed)

theorem exists_typeOf_of_typeOfAll {args : List Expr} {typed : List (Expr × Ty)}
    (ran : Types.typeOfAll registry args = .ok typed) :
    ∀ arg ∈ args, ∃ type, Types.typeOf registry arg = .ok type := by
  induction args generalizing typed with
  | nil =>
    exact forall_mem_nil _
  | cons arg rest ih =>
    obtain ⟨type, first, ran⟩ := bind_eq_ok_iff.mp ran
    obtain ⟨others, restRan, _⟩ := bind_pure_eq_ok_iff.mp ran
    exact forall_mem_cons.mpr ⟨⟨type, first⟩, ih restRan⟩

theorem settled_condition (stable : registry.Stable) {e : Expr}
    (isCondition : e.IsCondition (Families.Reference registry))
    (passed : Types.checkCondition registry e = .ok ()) : e.IsCondition registry.Settled := by
  obtain ⟨type, typed, _⟩ := bind_eq_ok_iff.mp passed
  cases isCondition with
  | operand _ isOperand => exact .operand e (settled_operand stable isOperand typed)
  | compound operator args loc arity operands =>
    obtain ⟨argTypes, argsTyped, _⟩ := bind_eq_ok_iff.mp typed
    refine .compound operator args loc arity fun arg member => ?_
    obtain ⟨argType, argTyped⟩ := exists_typeOf_of_typeOfAll argsTyped arg member
    exact settled_operand stable (operands arg member) argTyped

theorem settled_argument {table : Table Vocabulary} (stable : table.StableWords)
    {lookup : String → Option Vocabulary}
    (isLookup : ∀ kind, lookup kind =
      match table.get? kind with
      | some vocabulary => some vocabulary
      | none => table.values.find? fun vocabulary => vocabulary.type == kind)
    {arg : TriggerArg} (normalized : Chains.Normalized lookup arg) : arg.Settled lookup := by
  obtain ⟨kind, vocabulary, id, found, sameKind, canonical⟩ := normalized.known
  obtain ⟨isEntry, byType⟩ := stable.lookup_type isLookup found
  refine ⟨⟨vocabulary, ?_, sameKind, ?_⟩, normalized.counted⟩
  · rw [sameKind]
    exact byType
  · exact stable.ids vocabulary isEntry id _ canonical

/-- Under a stable registry, what comes out of the last step is settled. -/
theorem settled_of_output (stable : registry.Stable) {lowered : List Stmt}
    (output : Stage.chains.Output registry lowered) : ∀ s ∈ lowered, s.Settled registry := by
  intro s member
  cases output s member with
  | assign left right own tag passed =>
    obtain ⟨isSetting, stated, conditions⟩ := passed.1
    refine .assign left right own tag ⟨⟨isSetting, stated, fun e isOwn => ?_⟩, passed.2⟩
    cases isOwn
    exact settled_condition stable (conditions e rfl) passed.checkCondition
  | trigger awaited actions tag split =>
    obtain ⟨awaitedHolds, action, rfl, normalized⟩ := split
    refine .trigger awaited [action] tag ⟨?_, action, rfl, ?_⟩
    · rcases awaitedHolds with waits | awaitedNormalized
      · exact .inl waits
      · exact .inr (settled_argument stable.conditions (fun _ => rfl) awaitedNormalized)
    · exact settled_argument stable.actions (fun _ => rfl) normalized

/-! ## Numbered programs -/

theorem Stmt.Settled.numbered {s : Stmt} (settled : s.Settled registry) (number : Nat) :
    (s.numbered number).Settled registry := by
  cases settled with
  | assign left right own tag passed => exact .assign left right own _ passed
  | trigger awaited actions tag holds => exact .trigger awaited actions _ holds

variable {program : List Stmt}

theorem numberFrom_settled (settled : ∀ s ∈ program, s.Settled registry) (next : Nat) :
    (numberFrom next program).1 = program.mapIdx fun i s => s.numbered (next + i) := by
  induction program generalizing next with
  | nil =>
    rfl
  | cons s rest ih =>
    obtain ⟨first, others⟩ := forall_mem_cons.mp settled
    have one : s.numberFrom next = (s.numbered next, next + 1) := by
      cases first <;> rfl
    rw [numberFrom, one, mapIdx_cons]
    dsimp only
    rw [ih others (next + 1)]
    refine congrArg (List.cons (s.numbered next)) ?_
    simp only [Nat.add_assoc, Nat.add_comm 1]

theorem numberStatements_settled (settled : ∀ s ∈ program, s.Settled registry) :
    numberStatements program = program.mapIdx fun i s => s.numbered i := by
  rw [numberStatements, numberFrom_settled settled]
  simp only [Nat.zero_add]

theorem isSame_numbered (s t : Stmt) (i j : Nat) :
    (s.numbered i).isSame (t.numbered j) = (i == j) := by
  have marked : ∀ (s : Stmt) (i : Nat), (s.numbered i).mark = some ⟨i, false⟩ := by
    intro s i
    cases s <;> rfl
  rw [Stmt.isSame, marked, marked]
  rfl

theorem keptAt_numbered (program : List Stmt) :
    keptAt (program.mapIdx fun i s => s.numbered i) (program.mapIdx fun i s => s.numbered i) =
      (List.range program.length).map some := by
  refine ext_getElem (by simp [keptAt]) fun i inKept _ => ?_
  have inProgram : i < program.length := by
    simpa [keptAt] using inKept
  simp only [keptAt, getElem_map, getElem_mapIdx, getElem_range]
  rw [findIdx?_eq_some_iff_getElem]
  refine ⟨by simpa using inProgram, ?_, fun j earlier => ?_⟩
  · rw [getElem_mapIdx, isSame_numbered]
    exact beq_self_eq_true i
  · rw [getElem_mapIdx, isSame_numbered]
    simp only [beq_iff_eq]
    omega

theorem keptBy_of_run (settled : ∀ s ∈ program, s.Settled registry) {stage : Stage}
    (kept : stage.run registry (numberStatements program) = .ok (numberStatements program)) :
    keptBy registry (numberStatements program) stage =
      .ok ((List.range program.length).map some) := by
  rw [keptBy, kept]
  show Except.ok (keptAt (numberStatements program) (numberStatements program)) = _
  rw [numberStatements_settled settled, keptAt_numbered]

/-- The registry of the program is stable, and under every stable registry a step that is run once
more on a lowered program hands on each statement, unchanged and at its place. -/
theorem stage_run_lowered :
    Registry.builtin.Stable ∧
      ∀ registry : Registry, registry.Stable →
        ∀ (source : String) (program lowered : List Stmt),
          parse source = (program, []) → runStages registry Stage.all program = .ok lowered →
            ∀ stage : Stage,
              stage.run registry lowered = .ok lowered ∧
              stage.run registry (numberStatements lowered) = .ok (numberStatements lowered) ∧
              keptBy registry (numberStatements lowered) stage =
                .ok ((List.range lowered.length).map some) := by
  refine ⟨Registry.stable_builtin, ?_⟩
  intro registry stable source program lowered parsed ran stage
  have input := input_of_parse registry parsed
  have settled := settled_of_output stable (output_of_runStages input ran)
  have numberedSettled : ∀ s ∈ numberStatements lowered, s.Settled registry := by
    rw [numberStatements_settled settled]
    intro t member
    obtain ⟨i, inside, rfl⟩ := List.mem_mapIdx.mp member
    exact (settled _ (List.getElem_mem inside)).numbered i
  have kept := stage.run_settled numberedSettled
  exact ⟨stage.run_settled settled, kept, keptBy_of_run settled kept⟩

/-- A script with work for most of the steps. -/
def mixedScript : String :=
  "def hungry = Starving\n" ++
  "SmelterFuelPriority[Coal, Oil] = 2 " ++
  "if ResourceQuantity[...] > 10 and not hungry\n" ++
  "if BuildingCount.windmill >= 3 then\n  autoBuild = OFF\nend\n" ++
  "minimumMoney = ResourceStorage.Money / 2\n" ++
  "when Built city-windmill do Research tech-club; Arpa lhc end"

theorem stage_run_lowered_mixedScript :
    Registry.builtin.Stable ∧
      ∃ program lowered, parse mixedScript = (program, []) ∧
        runStages Registry.builtin Stage.all program = .ok lowered ∧ lowered.length = 6 ∧
        ∀ stage : Stage,
          stage.run Registry.builtin lowered = .ok lowered ∧
          stage.run Registry.builtin (numberStatements lowered) = .ok (numberStatements lowered) ∧
          keptBy Registry.builtin (numberStatements lowered) stage =
            .ok [some 0, some 1, some 2, some 3, some 4, some 5] := by
  have checked : (parse mixedScript).2 = [] ∧
      ((runStages Registry.builtin Stage.all (parse mixedScript).1).toOption.map List.length) =
        some 6 := by
    -- The equation of a long text is slow to state, so its definition is opened as it stands.
    delta mixedScript
    simp only [parse_eq_parseChars, String.toList_append]
    decide +kernel
  generalize parsed : parse mixedScript = read at checked ⊢
  obtain ⟨program, errors⟩ := read
  obtain ⟨rfl, sixStatements⟩ := checked
  dsimp only at sixStatements
  obtain ⟨lowered, ran, length⟩ := exists_ok_of_toOption_map sixStatements
  obtain ⟨stable, again⟩ := stage_run_lowered
  refine ⟨stable, program, lowered, rfl, ran, length, fun stage => ?_⟩
  have keptAgain := again Registry.builtin stable mixedScript program lowered parsed ran stage
  rw [length] at keptAgain
  exact keptAgain

end AutomationScript
