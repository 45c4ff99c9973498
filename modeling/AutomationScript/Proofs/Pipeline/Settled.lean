import AutomationScript.Proofs.Lowering.Chains
import AutomationScript.Proofs.Lowering.Collecting
import AutomationScript.Proofs.Lowering.Lists
import AutomationScript.Proofs.Lowering.Types
import AutomationScript.Pipeline.Stage

/-!
# Programs that every step leaves alone

A settled program has assignments of stated values to settings, under conditions over settled
references, and triggers in the form that the runtime knows.  Every lowering step hands such a
program on as it is (`Stage.run_settled`).
-/

namespace AutomationScript

variable {e : Expr}

/-- A reference that no step has anything to do with: its base is no family, and its key is a
setting or a name in the form that the runtime knows. -/
structure Registry.Settled (registry : Registry) (base : Ident) (key : Expr) : Prop where
  noFamily : registry.family? base.name = none
  named : ∃ word loc, key = .ident word loc ∧
    (isSettingBase base.name = true → (registry.settingType? word.name).isSome = true) ∧
    (isSettingBase base.name = false → ∃ category, registry.category? base.name = some category ∧
      Alias.canonicalKey? registry base.name category word.name = some word.name)

/-! ## Expressions -/

theorem Expr.IsStated.isAtom (stated : e.IsStated) : e.isAtom = true := by
  cases stated <;> rfl

/-- The step hands on constants, texts and settled references, and operators over such operands. -/
structure Untouched (registry : Registry) (step : Expr → Lowering (Revised Expr)) : Prop where
  stated : ∀ {e : Expr}, e.IsStated → step e = .ok (.kept e)
  subscript : ∀ {base : Ident} {key : Expr} (loc : Option Location),
    base.name ≠ evalName → registry.Settled base key →
    step (.subscript base key loc) = .ok (.kept (.subscript base key loc))
  compound : ∀ (operator : Operator) {args : List Expr} (loc : Option Location),
    (∀ arg ∈ args, arg.IsOperand registry.Settled) →
    (∀ arg ∈ args, step arg = .ok (.kept arg)) →
    step (.compound operator args loc) = .ok (.kept (.compound operator args loc))

namespace Untouched

variable {registry : Registry} {step : Expr → Lowering (Revised Expr)}

theorem operand (untouched : Untouched registry step) (isOperand : e.IsOperand registry.Settled) :
    step e = .ok (.kept e) := by
  cases isOperand with
  | stated _ stated => exact untouched.stated stated
  | subscript base key loc notEval settled => exact untouched.subscript loc notEval settled

theorem condition (untouched : Untouched registry step)
    (isCondition : e.IsCondition registry.Settled) : step e = .ok (.kept e) := by
  cases isCondition with
  | operand _ isOperand => exact untouched.operand isOperand
  | compound operator args loc _ operands =>
    exact untouched.compound operator loc operands fun arg member =>
      untouched.operand (operands arg member)

theorem reviseOption (untouched : Untouched registry step) {own : Option Expr}
    (conditions : ∀ e ∈ own, e.IsCondition registry.Settled) :
    reviseOption step own = .ok (.kept own) := by
  cases own with
  | none => rfl
  | some e =>
    rw [AutomationScript.reviseOption, untouched.condition (conditions e rfl)]
    rfl

theorem ofRule
    {rule : Expr → Option (Lowering (Revised Expr))} (isRevision : ∀ e, step e = e.revise rule)
    (stated : ∀ {e : Expr}, e.IsStated → rule e = none)
    (subscript : ∀ {base : Ident} {word : Ident} (keyLoc loc : Option Location),
      base.name ≠ evalName → registry.Settled base (.ident word keyLoc) →
      rule (.subscript base (.ident word keyLoc) loc) =
          some (.ok (.kept (.subscript base (.ident word keyLoc) loc))) ∨
        rule (.subscript base (.ident word keyLoc) loc) = none ∧
          rule (.ident word keyLoc) = none)
    (compound : ∀ operator args loc, rule (.compound operator args loc) = none) :
    Untouched registry step where
  stated := by
    intro e isStated
    rw [isRevision, Expr.revise_atom rule isStated.isAtom, stated isStated]
    rfl
  subscript := by
    intro base key loc notEval settled
    obtain ⟨word, keyLoc, rfl, _⟩ := settled.named
    rw [isRevision, Expr.revise]
    rcases subscript keyLoc loc notEval settled with kept | ⟨unanswered, keyUnanswered⟩
    · rw [kept]
    · rw [unanswered]
      dsimp only
      rw [Expr.revise_atom rule rfl, keyUnanswered]
      rfl
  compound := by
    intro operator args loc _ kept
    have keptAll : reviseList (Expr.revise rule) args = .ok (.kept args) := by
      refine reviseList_eq_kept fun arg member => ?_
      rw [← isRevision]
      exact kept arg member
    rw [isRevision, Expr.revise, compound, Expr.reviseAll_eq_reviseList]
    dsimp only
    rw [keptAll]
    rfl

end Untouched

section Steps

variable (registry : Registry)

theorem untouched_expand : Untouched registry (Wildcard.expand registry) where
  stated := by
    intro e stated
    cases stated <;> rfl
  subscript := by
    intro base key loc _ settled
    obtain ⟨word, keyLoc, rfl, _⟩ := settled.named
    rfl
  compound := by
    intro operator args loc _ kept
    rw [Wildcard.expand, Wildcard.expandAll_eq_reviseList, reviseList_eq_kept kept]
    rfl

theorem Expr.IsOperand.isListFree (isOperand : e.IsOperand registry.Settled) :
    e.isListFree = true := by
  cases isOperand with
  | stated _ stated => exact isListFree_of_isAtom stated.isAtom
  | subscript base key loc _ settled =>
    obtain ⟨word, keyLoc, rfl, _⟩ := settled.named
    rfl

theorem untouched_resolveRoot : Untouched registry (Lists.resolveRoot registry) where
  stated stated :=
    Lists.resolveRoot_of_isListFree registry (Expr.isListFree_of_isAtom stated.isAtom)
  subscript loc notEval settled := Lists.resolveRoot_of_isListFree registry
    (Expr.IsOperand.isListFree registry (.subscript _ _ loc notEval settled))
  compound _ _ _ operands _ := Lists.resolveRoot_of_isListFree registry
    (Expr.isListFree_compound.mpr fun arg member => (operands arg member).isListFree registry)

theorem untouched_fill (key : Option Ident) : Untouched registry (Placeholder.fill key) := by
  refine Untouched.ofRule (fun e => by rw [Placeholder.fill]) ?_ ?_ ?_
  · intro e stated
    cases stated <;> rfl
  · intro base word keyLoc loc _ _
    exact .inr ⟨rfl, rfl⟩
  · intro operator args loc
    rfl

theorem resolveSubscript_aliases {registry : Registry} {base word : Ident}
    (keyLoc loc : Option Location) (settled : registry.Settled base (.ident word keyLoc)) :
    Alias.resolveSubscript registry base (.ident word keyLoc) loc =
      .ok (.kept (.subscript base (.ident word keyLoc) loc)) := by
  obtain ⟨_, _, same, _, ofCategory⟩ := settled.named
  cases same
  rw [Alias.resolveSubscript]
  dsimp only
  split
  · rfl
  · next isCategory =>
      have notSettings : isSettingBase base.name = false :=
        Bool.eq_false_iff.mpr fun isSettings => isCategory (.inr (.inl isSettings))
      obtain ⟨category, found, canonical⟩ := ofCategory notSettings
      rw [found]
      dsimp only
      rw [canonical]
      dsimp only
      rw [if_pos rfl]
      rfl

theorem untouched_resolveAliases : Untouched registry (Alias.resolve registry) := by
  refine Untouched.ofRule (fun e => by rw [Alias.resolve]) ?_ ?_ ?_
  · intro e stated
    cases stated <;> rfl
  · intro base word keyLoc loc _ settled
    exact .inl (congrArg some (resolveSubscript_aliases keyLoc loc settled))
  · intro operator args loc
    rfl

theorem resolveSubscript_families {registry : Registry} {base word : Ident}
    (keyLoc loc : Option Location) (settled : registry.Settled base (.ident word keyLoc)) :
    Families.resolveSubscript registry base (.ident word keyLoc) loc =
      .ok (.kept (.subscript base (.ident word keyLoc) loc)) := by
  obtain ⟨_, _, same, ofSettings, _⟩ := settled.named
  cases same
  rw [Families.resolveSubscript, settled.noFamily]
  dsimp only [Option.isSome_none]
  rw [if_neg Bool.false_ne_true]
  split
  · next isSettings =>
      rw [ofSettings isSettings]
      rfl
  · rfl

theorem untouched_resolveFamilies : Untouched registry (Families.resolve registry) := by
  refine Untouched.ofRule (fun e => by rw [Families.resolve]) ?_ ?_ ?_
  · intro e stated
    cases stated <;> rfl
  · intro base word keyLoc loc _ settled
    exact .inl (congrArg some (resolveSubscript_families keyLoc loc settled))
  · intro operator args loc
    rfl

theorem lowerOperand_settled (isOperand : e.IsOperand registry.Settled) :
    Conditions.lowerOperand e = .ok (.kept e) := by
  cases isOperand with
  | stated _ stated => cases stated <;> rfl
  | subscript base key loc notEval settled =>
    obtain ⟨word, keyLoc, rfl, _⟩ := settled.named
    simp only [Conditions.lowerOperand, Expr.inlineEval?, if_neg notEval]
    rfl

theorem lowerCondition_settled (isCondition : e.IsCondition registry.Settled) :
    Conditions.lowerCondition e = .ok (.kept e) := by
  cases isCondition with
  | compound operator args loc _ operands =>
    have keptAll := reviseList_eq_kept fun arg member =>
      lowerOperand_settled registry (operands arg member)
    rw [Conditions.lowerCondition, keptAll]
    rfl
  | operand _ isOperand =>
    have lowered := lowerOperand_settled registry isOperand
    cases isOperand with
    | stated _ stated => cases stated <;> rfl
    | subscript base key loc _ _ => exact lowered

end Steps

/-! ## Statements -/

/-- The argument is in the form that the runtime knows it by. -/
structure TriggerArg.Settled (lookup : String → Option Vocabulary) (arg : TriggerArg) : Prop where
  known : ∃ vocabulary, lookup arg.kind.name = some vocabulary ∧
    arg.kind.name = vocabulary.type ∧ vocabulary.canonicalId arg.id.name = some arg.id.name
  counted : arg.HasCount

/-- A trigger with one action, in the form that the runtime knows. -/
def SettledTrigger
    (registry : Registry) (awaited : TriggerArg) (actions : List TriggerArg) : Prop :=
  (Chains.isChain awaited = true ∨ awaited.Settled registry.condition?) ∧
    ∃ action, actions = [action] ∧ action.Settled registry.action?

/-- An assignment or a trigger that no step has anything to do with. -/
def Stmt.Settled (registry : Registry) : Stmt → Prop :=
  Stmt.Flat (Types.Passed registry registry.Settled) (SettledTrigger registry)

theorem lowerEach_eq_self {lower : Stmt → Lowering (List Stmt)} {program : List Stmt}
    (kept : ∀ s ∈ program, lower s = .ok [s]) : lowerEach lower program = .ok program := by
  induction program with
  | nil =>
    rfl
  | cons s rest ih =>
    obtain ⟨first, others⟩ := List.forall_mem_cons.mp kept
    rw [lowerEach, first, ih others]
    rfl

namespace Stmt.Settled

variable {registry : Registry} {s : Stmt}

variable {target value : Expr → Lowering (Revised Expr)}

theorem revise (settled : s.Settled registry)
    (targets : ∀ e, e.IsSetting registry → target e = .ok (.kept e))
    (untouched : Untouched registry value) : s.revise target value = .ok s := by
  cases settled with
  | assign left right own tag passed =>
    obtain ⟨isSetting, stated, conditions⟩ := passed.1
    rw [Stmt.revise, targets left isSetting, untouched.stated stated,
      untouched.reviseOption conditions]
    rfl
  | trigger awaited actions tag holds => rfl

theorem reviseEach {program : List Stmt} (settled : ∀ s ∈ program, s.Settled registry)
    (targets : ∀ e, e.IsSetting registry → target e = .ok (.kept e))
    (untouched : Untouched registry value) :
    lowerEach (fun s => do return [← s.revise target value]) program = .ok program := by
  refine lowerEach_eq_self fun s member => ?_
  rw [(settled s member).revise targets untouched]
  rfl

theorem lowerLists (settled : s.Settled registry) : Lists.lowerStmt registry s = .ok [s] := by
  have untouched := untouched_resolveRoot registry
  cases settled with
  | assign left right own tag passed =>
    obtain ⟨⟨word, loc, rfl, _⟩, stated, conditions⟩ := passed.1
    rw [Lists.lowerStmt, untouched.stated stated, untouched.reviseOption conditions]
    rfl
  | trigger awaited actions tag holds => rfl

theorem lowerPlaceholders (settled : s.Settled registry) : Placeholder.lowerStmt s = .ok [s] := by
  cases settled with
  | assign left right own tag passed =>
    obtain ⟨⟨word, loc, rfl, _⟩, stated, conditions⟩ := passed.1
    have untouched := untouched_fill registry none
    rw [Placeholder.lowerStmt]
    show (do
      let value ← Placeholder.fill none right
      let condition ← reviseOption (Placeholder.fill none) own
      return [Stmt.ofParts (.kept (.ident word loc)) value condition tag]) = _
    rw [untouched.stated stated, untouched.reviseOption conditions]
    rfl
  | trigger awaited actions tag holds => rfl

theorem lowerConditions (settled : s.Settled registry) : Conditions.lowerStmt s = .ok [s] := by
  cases settled with
  | assign left right own tag passed =>
    obtain ⟨_, stated, conditions⟩ := passed.1
    have value : Conditions.lowerValue right = .ok (.kept right) := by
      cases stated <;> rfl
    rw [Conditions.lowerStmt, value]
    cases own with
    | none => rfl
    | some condition =>
      have kept := lowerCondition_settled registry (conditions condition rfl)
      show (do
        let condition ← reviseOption Conditions.lowerCondition (some condition)
        return [Stmt.ofParts (.kept left) (.kept right) condition tag]) = _
      rw [reviseOption, kept]
      rfl
  | trigger awaited actions tag holds => rfl

end Stmt.Settled

namespace Chains

variable {arg : TriggerArg}

theorem normalizeCount_settled (counted : arg.HasCount) :
    ∃ count, arg.count = some count ∧ normalizeCount arg = .ok count := by
  obtain ⟨value, loc, n, isCount, isWhole, inRange⟩ := counted
  refine ⟨.number value loc, isCount, ?_⟩
  rw [normalizeCount, isCount]
  dsimp only
  rw [isWhole]
  dsimp only
  rw [if_pos inRange]
  rfl

theorem normalize_settled {vocabulary : Vocabulary} (sameKind : arg.kind.name = vocabulary.type)
    (sameId : vocabulary.canonicalId arg.id.name = some arg.id.name) (counted : arg.HasCount) :
    normalize vocabulary arg = .ok (.kept arg) := by
  obtain ⟨count, isCount, normalized⟩ := normalizeCount_settled counted
  have kept : arg.kind.name = vocabulary.type ∧ arg.id.name = arg.id.name ∧
      arg.count.isSome = true := by
    rw [isCount]
    exact ⟨sameKind, rfl, rfl⟩
  rw [normalize, sameId]
  dsimp only
  rw [normalized]
  show (if arg.kind.name = vocabulary.type ∧ arg.id.name = arg.id.name ∧ arg.count.isSome = true
    then pure (Revised.kept arg) else _) = _
  rw [if_pos kept]
  rfl

variable {registry : Registry}

theorem normalizeCondition_settled
    (settled : isChain arg = true ∨ arg.Settled registry.condition?) :
    normalizeCondition registry arg = .ok (.kept arg) := by
  rw [normalizeCondition]
  split
  · rfl
  · next notChain =>
      rcases settled with waits | settled
      · exact absurd waits notChain
      · obtain ⟨vocabulary, found, sameKind, sameId⟩ := settled.known
        rw [found]
        exact normalize_settled sameKind sameId settled.counted

theorem normalizeAction_settled (settled : arg.Settled registry.action?) :
    normalizeAction registry arg = .ok (.kept arg) := by
  obtain ⟨vocabulary, found, sameKind, sameId⟩ := settled.known
  rw [normalizeAction, found]
  exact normalize_settled sameKind sameId settled.counted

theorem lowerStmt_settled {s : Stmt} (settled : s.Settled registry) :
    lowerStmt registry s = .ok [s] := by
  cases settled with
  | assign left right own tag passed => rfl
  | trigger awaited actions tag holds =>
    obtain ⟨awaitedSettled, action, rfl, actionSettled⟩ := holds
    rw [lowerStmt, normalizeCondition_settled awaitedSettled]
    show (do
      let action ← normalizeAction registry action
      let others ← later registry tag []
      let kept := List.isEmpty ([] : List TriggerArg) && !false && !action.fresh
      let tag := if kept then tag else tag.rebuilt
      return Stmt.trigger awaited [action.value] tag :: others) = _
    rw [normalizeAction_settled actionSettled]
    rfl

end Chains

/-! ## Flat programs -/

section Kept

variable {rule : Expr → Option (Lowering (Revised Expr))}

theorem Expr.revise_eq_kept (keeps : ∀ e, rule e = none ∨ rule e = some (.ok (.kept e)))
    (e : Expr) : e.revise rule = .ok (.kept e) := by
  refine Expr.revise_induction (motive := fun e step => step = .ok (.kept e)) ?_
    (fun _ _ _ => rfl) ?_ ?_ e
  · intro e answer answered
    rcases keeps e with unanswered | kept
    · cases unanswered.symm.trans answered
    · exact Option.some.inj (answered.symm.trans kept)
  · intro base key loc _ keyKept
    rw [keyKept]
    rfl
  · intro build _ values _ valuesKept
    rw [reviseList_eq_kept valuesKept]
    rfl

end Kept

theorem Definition.expandExpr_empty (fuel : Nat) (active : List String) (e : Expr) :
    expandExpr .empty fuel active e = .ok (.kept e) := by
  rw [expandExpr]
  refine Expr.revise_eq_kept (fun node => ?_) e
  cases node with
  | subscript base key loc => exact .inr rfl
  | _ => exact .inl rfl

section Flat

variable {assigned : Expr → Expr → Option Expr → Prop}
  {fired : TriggerArg → List TriggerArg → Prop} {program : List Stmt}

theorem lower_definitions_flat (registry : Registry) (flat : ∀ s ∈ program, s.Flat assigned fired) :
    Definition.lower registry program = .ok program := by
  have plain : ∀ s ∈ program, s.definition? = none := by
    intro s member
    cases flat s member <;> rfl
  rw [Definition.lower, Definition.collect_of_definition?_eq_none plain]
  show Definition.expandStmts .empty 0 [] program = _
  rw [Definition.expandStmts]
  refine lowerEach_eq_self fun s member => ?_
  have sFlat := flat s member
  cases sFlat with
  | assign left right own tag holds =>
    have ownKept : reviseOption (Definition.expandExpr .empty 0 []) own = .ok (.kept own) := by
      cases own with
      | none => rfl
      | some e =>
        rw [reviseOption, Definition.expandExpr_empty]
        rfl
    change (do return [← Stmt.revise unrevised (Definition.expandExpr .empty 0 []) _]) = _
    rw [Stmt.revise, Definition.expandExpr_empty, ownKept]
    rfl
  | trigger awaited actions tag holds => rfl

theorem flatten_flat (flat : ∀ s ∈ program, s.Flat assigned fired) :
    Blocks.flatten [] program = .ok program := by
  induction program with
  | nil =>
    rfl
  | cons s rest ih =>
    obtain ⟨first, others⟩ := List.forall_mem_cons.mp flat
    cases first <;> exact bind_pure_eq_ok_iff.mpr ⟨rest, ih others, rfl⟩

end Flat

/-! ## Programs -/

section Programs

variable {registry : Registry} {program : List Stmt}

theorem checkAll_settled (settled : ∀ s ∈ program, s.Settled registry) :
    Types.checkAll registry program = .ok () := by
  induction program with
  | nil =>
    rfl
  | cons s rest ih =>
    obtain ⟨first, others⟩ := List.forall_mem_cons.mp settled
    have passes : Types.checkStmt registry s = .ok () := by
      cases first with
      | assign left right own tag passed => exact passed.2 tag
      | trigger awaited actions tag holds => rfl
    rw [Types.checkAll, passes]
    exact ih others

theorem resolveTarget_settled (e : Expr) (isSetting : e.IsSetting registry) :
    Families.resolveTarget registry e = .ok (.kept e) := by
  obtain ⟨word, loc, rfl, known⟩ := isSetting
  rw [Families.resolveTarget, known]
  rfl

theorem expandTarget_settled (e : Expr) (isSetting : e.IsSetting registry) :
    Wildcard.expand registry e = .ok (.kept e) := by
  obtain ⟨word, loc, rfl, known⟩ := isSetting
  rfl

/-- Every step hands on a settled program as it is. -/
theorem Stage.run_settled (stage : Stage) (settled : ∀ s ∈ program, s.Settled registry) :
    stage.run registry program = .ok program := by
  cases stage with
  | definitions => exact lower_definitions_flat registry settled
  | wildcards =>
    exact Stmt.Settled.reviseEach settled expandTarget_settled (untouched_expand registry)
  | lists => exact lowerEach_eq_self fun s member => (settled s member).lowerLists
  | placeholders => exact lowerEach_eq_self fun s member => (settled s member).lowerPlaceholders
  | aliases =>
    exact Stmt.Settled.reviseEach settled (fun _ _ => rfl) (untouched_resolveAliases registry)
  | families =>
    exact Stmt.Settled.reviseEach settled resolveTarget_settled
      (untouched_resolveFamilies registry)
  | blocks => exact flatten_flat settled
  | conditions => exact lowerEach_eq_self fun s member => (settled s member).lowerConditions
  | types =>
    show (Types.checkAll registry program >>= fun _ => pure program) = _
    rw [checkAll_settled settled]
    rfl
  | chains => exact lowerEach_eq_self fun s member => Chains.lowerStmt_settled (settled s member)

end Programs

end AutomationScript
