import Mathlib.Data.List.Forall2
import AutomationScript.Lowering.Chains
import AutomationScript.Proofs.Lowering.Blocks
import AutomationScript.Proofs.Number.Value

/-!
# Triggers and what they are split into

Splitting a trigger leaves one trigger with one action for each of its actions (`SplitInto`), in the
form that the runtime knows, with a whole number as its count.
-/

namespace AutomationScript

open List

/-- The count is a whole number in the range of the runtime's integers. -/
def TriggerArg.HasCount (arg : TriggerArg) : Prop :=
  ∃ value loc n, arg.count = some (.number value loc) ∧ Number.toInt? value = some n ∧
    n.natAbs < Nat.pow 2 63

namespace Chains

variable {registry : Registry}

/-- The argument is in the form that the runtime knows it by, from one of the kinds that `lookup`
finds. -/
structure Normalized (lookup : String → Option Vocabulary) (arg : TriggerArg) : Prop where
  known : ∃ kind vocabulary id, lookup kind = some vocabulary ∧
    arg.kind.name = vocabulary.type ∧ vocabulary.canonicalId id = some arg.id.name
  counted : arg.HasCount

/-- A trigger with one action, after its condition or after the action before. -/
def Split (registry : Registry) (awaited : TriggerArg) (actions : List TriggerArg) : Prop :=
  (isChain awaited = true ∨ Normalized registry.condition? awaited) ∧
    ∃ action, actions = [action] ∧ Normalized registry.action? action

/-- The count of the one argument is that of the other as it is written, or one if none is. -/
def CountsAs (arg normal : TriggerArg) : Prop :=
  ∃ value loc n, normal.count = some (.number value loc) ∧ Number.toInt? value = some n ∧
    0 ≤ n ∧ n < (2 : Int) ^ 63 ∧
    (∀ given ∈ arg.count, given = .number value loc) ∧ (arg.count = none → n = 1)

/-- The one argument has the form that the runtime knows the other by. -/
structure Normal (lookup : String → Option Vocabulary) (arg normal : TriggerArg) : Prop where
  known : ∃ vocabulary, lookup arg.kind.name = some vocabulary ∧
    normal.kind.name = vocabulary.type ∧ vocabulary.canonicalId arg.id.name = some normal.id.name
  counted : CountsAs arg normal

variable {lookup : String → Option Vocabulary} {arg : TriggerArg}

theorem Normal.normalized {normal : TriggerArg} (isNormal : Normal lookup arg normal) :
    Normalized lookup normal := by
  obtain ⟨vocabulary, found, sameKind, canonical⟩ := isNormal.known
  obtain ⟨value, loc, n, isCount, isWhole, nonneg, inRange, _⟩ := isNormal.counted
  refine ⟨⟨_, vocabulary, _, found, sameKind, canonical⟩, value, loc, n, isCount, isWhole, ?_⟩
  have limit : (Nat.pow 2 63 : Int) = 2 ^ 63 := rfl
  omega

/-- A trigger that one of the later actions becomes: it waits for the action before. -/
def Follows (registry : Registry) (action : TriggerArg) (s : Stmt) : Prop :=
  ∃ normal tag, s = .trigger (chainAfter action) [normal] tag ∧ Normal registry.action? action normal

/-- The triggers that a trigger with these actions is split into. -/
inductive SplitInto (registry : Registry) (condition : TriggerArg) :
    List TriggerArg → List Stmt → Prop where
  | nil :
      SplitInto registry condition [] []
  | cons {action awaited normal : TriggerArg} {rest : List TriggerArg} {others : List Stmt}
      (tag : Tag) :
      Normal registry.condition? condition awaited →
      Normal registry.action? action normal →
      Forall₂ (Follows registry) rest others →
      SplitInto registry condition (action :: rest) (.trigger awaited [normal] tag :: others)

theorem yields_normalizeCount (written : arg.Written) :
    Yields (fun count => ∃ value loc n, count = .number value loc ∧
        Number.toInt? value = some n ∧ 0 ≤ n ∧ n < (2 : Int) ^ 63 ∧
        (∀ given ∈ arg.count, given = count) ∧ (arg.count = none → n = 1))
      (normalizeCount arg) := by
  obtain ⟨kind, id, count, argLoc⟩ := arg
  cases count with
  | none =>
    exact ⟨_, argLoc, 1, rfl, by decide +kernel, by decide, by decide, nofun, fun _ => rfl⟩
  | some given =>
    obtain ⟨value, loc, rfl, unsigned⟩ := written.counted given rfl
    simp only [normalizeCount]
    cases isWhole : value.toInt? with
    | none => exact Yields.of_refuse _ _
    | some n =>
      have nonneg := Number.nonneg_of_toInt? unsigned isWhole
      dsimp only
      split
      · next inRange =>
          have limit : (Nat.pow 2 63 : Int) = 2 ^ 63 := rfl
          refine ⟨value, loc, n, rfl, isWhole, nonneg, by omega, fun given isIt => ?_, nofun⟩
          cases isIt
          rfl
      · exact Yields.of_refuse _ _

theorem yields_normalize {vocabulary : Vocabulary}
    (found : lookup arg.kind.name = some vocabulary) (written : arg.Written) :
    Yields (fun revised => Normal lookup arg revised.value) (normalize vocabulary arg) := by
  unfold normalize
  cases canonical : vocabulary.canonicalId arg.id.name with
  | none => exact Yields.of_refuse _ _
  | some id =>
    refine (yields_normalizeCount written).bind fun count holds => ?_
    obtain ⟨value, loc, n, rfl, isWhole, nonneg, inRange, same, missing⟩ := holds
    dsimp only
    split
    · next kept =>
        obtain ⟨sameKind, sameId, hasCount⟩ := kept
        obtain ⟨given, isCount⟩ := Option.isSome_iff_exists.mp hasCount
        have countGiven := isCount.trans (congrArg some (same given isCount))
        have idGiven := canonical.trans (congrArg some sameId.symm)
        exact ⟨⟨vocabulary, found, sameKind, idGiven⟩,
          value, loc, n, countGiven, isWhole, nonneg, inRange, same, missing⟩
    · exact ⟨⟨vocabulary, found, rfl, canonical⟩,
        value, loc, n, rfl, isWhole, nonneg, inRange, same, missing⟩

/-- What is written has an id, so it is not the condition that waits for the action before. -/
theorem isChain_of_written (written : arg.Written) : isChain arg = false := by
  simp [isChain, written.named]

theorem yields_normalizeCondition (written : arg.Written) :
    Yields (fun revised => Normal registry.condition? arg revised.value)
      (normalizeCondition registry arg) := by
  rw [normalizeCondition, isChain_of_written written, if_neg Bool.false_ne_true]
  cases found : registry.condition? arg.kind.name with
  | none => exact Yields.of_refuse _ _
  | some vocabulary => exact yields_normalize found written

theorem yields_normalizeAction (written : arg.Written) :
    Yields (fun revised => Normal registry.action? arg revised.value)
      (normalizeAction registry arg) := by
  unfold normalizeAction
  cases found : registry.action? arg.kind.name with
  | none => exact Yields.of_refuse _ _
  | some vocabulary => exact yields_normalize found written

variable {actions : List TriggerArg}

theorem yields_later (tag : Tag) (written : ∀ action ∈ actions, action.Written) :
    Yields (Forall₂ (Follows registry) actions) (later registry tag actions) := by
  induction actions with
  | nil =>
    exact Yields.of_pure .nil
  | cons action rest ih =>
    obtain ⟨first, others⟩ := forall_mem_cons.mp written
    refine (yields_normalizeAction first).bind fun normalized isNormal => ?_
    refine (ih others).bind fun part follow => ?_
    exact .cons ⟨normalized.value, tag.rebuilt, rfl, isNormal⟩ follow

theorem yields_lowerStmt (tag : Tag) {awaited : TriggerArg}
    (written : ArgsWritten awaited actions) :
    Yields (SplitInto registry awaited actions)
      (lowerStmt registry (.trigger awaited actions tag)) := by
  refine (yields_normalizeCondition written.1).bind fun newAwaited awaitedNormal => ?_
  cases actions with
  | nil => exact Yields.of_pure .nil
  | cons action rest =>
    obtain ⟨first, others⟩ := forall_mem_cons.mp written.2
    refine (yields_normalizeAction first).bind fun newAction actionNormal => ?_
    refine (yields_later tag others).bind fun part follow => ?_
    exact .cons _ awaitedNormal actionNormal follow

theorem isChain_chainAfter (action : TriggerArg) : isChain (chainAfter action) = true := by
  have isZero : (Number.ofInt 0).isZero = true := by
    decide +kernel
  simp [isChain, chainAfter, isZero]

theorem SplitInto.flat (assigned : Expr → Expr → Option Expr → Prop) {awaited : TriggerArg}
    {part : List Stmt} (splitInto : SplitInto registry awaited actions part) :
    ∀ t ∈ part, t.Flat assigned (Split registry) := by
  cases splitInto with
  | nil => exact forall_mem_nil _
  | cons tag awaitedNormal actionNormal follow =>
    refine forall_mem_cons.mpr ⟨.trigger _ _ tag ⟨.inr awaitedNormal.normalized, ?_⟩, ?_⟩
    · exact ⟨_, rfl, actionNormal.normalized⟩
    · clear awaitedNormal actionNormal
      induction follow with
      | nil => exact forall_mem_nil _
      | @cons action _ _ _ follows _ ih =>
        obtain ⟨normal, tag, rfl, isNormal⟩ := follows
        refine forall_mem_cons.mpr ⟨.trigger _ _ tag ⟨.inl ?_, ?_⟩, ih⟩
        · exact isChain_chainAfter action
        · exact ⟨normal, rfl, isNormal.normalized⟩

theorem yields_lower {assigned : Expr → Expr → Option Expr → Prop} {program : List Stmt}
    (flat : ∀ s ∈ program, s.Flat assigned ArgsWritten) :
    Yields (fun lowered => ∀ t ∈ lowered, t.Flat assigned (Split registry))
      (lower registry program) := by
  refine Yields.lowerEach (fun s sFlat => ?_) flat
  cases sFlat with
  | assign left right own tag parts =>
    exact forall_mem_singleton.mpr (.assign left right own tag parts)
  | trigger awaited actions tag written =>
    exact (yields_lowerStmt tag written).mono fun _ splitInto => splitInto.flat assigned

end Chains

end AutomationScript
