import AutomationScript.Proofs.Lowering.Collecting
import AutomationScript.Proofs.Lowering.Entering

/-!
# Definitions of two programs together

Two programs that define no name in common are expanded together as they are apart, if no name
that is mentioned after the expansion of one of them is defined by the other (`lower_append`).
-/

namespace AutomationScript

open List

variable {registry : Registry}
variable {s : Stmt} {name : String} {definitions : Table Definition} {fuel : Nat}
  {active : List String} {lowered statements : List Stmt}

/-! ## Revisions under two rules -/

section Revisions

variable {free : String → Prop}

variable {value value' : Expr → Lowering (Revised Expr)}

theorem reviseOption_extends
    (parts : ∀ {e : Expr} {revised : Revised Expr}, value e = .ok revised →
      (∀ name, revised.value.Mentions name → free name) → value' e = .ok revised)
    {e : Option Expr} {revised : Revised (Option Expr)} (ran : reviseOption value e = .ok revised)
    (mentioned : ∀ name, (∃ inner ∈ revised.value, inner.Mentions name) → free name) :
    reviseOption value' e = .ok revised := by
  cases e with
  | none => exact ran
  | some e =>
    obtain ⟨inner, innerRan, rfl⟩ := bind_pure_eq_ok_iff.mp ran
    have same := parts innerRan fun name mentions => mentioned name ⟨inner.value, rfl, mentions⟩
    exact bind_pure_eq_ok_iff.mpr ⟨inner, same, rfl⟩

theorem Stmt.revise_extends {target : Expr → Lowering (Revised Expr)}
    (parts : ∀ {e : Expr} {revised : Revised Expr}, value e = .ok revised →
      (∀ name, revised.value.Mentions name → free name) → value' e = .ok revised)
    {s' : Stmt} (ran : s.revise target value = .ok s')
    (mentioned : ∀ name, s'.HasPart (Expr.Mentions name) → free name) :
    s.revise target value' = .ok s' := by
  cases s with
  | assign left right condition tag =>
    obtain ⟨newLeft, leftRan, continued⟩ := bind_eq_ok_iff.mp ran
    obtain ⟨newRight, rightRan, continued⟩ := bind_eq_ok_iff.mp continued
    obtain ⟨newCondition, conditionRan, rfl⟩ := bind_pure_eq_ok_iff.mp continued
    have rightSame := parts rightRan fun name mentions => mentioned name (.inl mentions)
    have conditionSame := reviseOption_extends parts conditionRan fun name mentions =>
      mentioned name (.inr mentions)
    exact bind_eq_ok_iff.mpr ⟨newLeft, leftRan, bind_eq_ok_iff.mpr
      ⟨newRight, rightSame, bind_pure_eq_ok_iff.mpr ⟨newCondition, conditionSame, rfl⟩⟩⟩
  | openBlock condition tag =>
    obtain ⟨newCondition, conditionRan, rfl⟩ := bind_pure_eq_ok_iff.mp ran
    exact bind_pure_eq_ok_iff.mpr ⟨newCondition, parts conditionRan mentioned, rfl⟩
  | _ => exact ran

theorem Mentioned.append_left {first : List Stmt} (mentioned : Mentioned name first)
    (others : List Stmt) : Mentioned name (first ++ others) := by
  obtain ⟨s, member, hasPart⟩ := mentioned
  exact ⟨s, mem_append_left _ member, hasPart⟩

theorem Mentioned.append_right {others : List Stmt} (mentioned : Mentioned name others)
    (first : List Stmt) : Mentioned name (first ++ others) := by
  obtain ⟨s, member, hasPart⟩ := mentioned
  exact ⟨s, mem_append_right _ member, hasPart⟩

end Revisions

namespace Definition

/-! ## Expanding with more definitions -/

theorem expandExpr_within {all : Table Definition} (within : Within definitions all) {more : Nat}
    (enough : fuel ≤ more) {e : Expr} {revised : Revised Expr}
    (ran : expandExpr definitions fuel active e = .ok revised)
    (undefined : NamesNone all revised.value) : expandExpr all more active e = .ok revised := by
  induction fuel using Nat.strongRecOn generalizing more active e revised with
  | ind fuel ih =>
    rw [expandExpr_eq] at ran ⊢
    refine revise_nameRule_within within (fun entered free => ?_) ran undefined
    cases fuel with
    | zero => cases entered
    | succ fuel =>
      obtain ⟨more, rfl⟩ := Nat.exists_eq_add_of_le' (Nat.le_trans (Nat.succ_pos fuel) enough)
      obtain ⟨expanded, bodyRan, rfl⟩ := bind_pure_eq_ok_iff.mp entered
      have same := ih fuel (Nat.lt_succ_self fuel) (Nat.le_of_succ_le_succ enough) bodyRan free
      exact bind_pure_eq_ok_iff.mpr ⟨expanded, same, rfl⟩

inductive Expands (definitions : Table Definition) :
    (fuel : Nat) → (active : List String) → Stmt → List Stmt → Prop
  | use {fuel : Nat} {active : List String} {name : Ident} {tag : Tag} {body part : List Stmt} :
      definitions.get? name.name = some (.block body) →
      name.name ∉ active →
      expandStmts definitions fuel (name.name :: active) body = .ok part →
      Expands definitions (fuel + 1) active (.use name tag) part
  | revised {fuel : Nat} {active : List String} {s s' : Stmt} :
      s.isDefinitional = false →
      s.revise unrevised (expandExpr definitions fuel active) = .ok s' →
      Expands definitions fuel active s [s']

theorem expandStmts_nil (definitions : Table Definition) (fuel : Nat) (active : List String) :
    expandStmts definitions fuel active [] = .ok [] := by
  rw [expandStmts]
  rfl

theorem expandStmts_cons_eq_ok_iff {rest : List Stmt} :
    expandStmts definitions fuel active (s :: rest) = .ok lowered ↔
      ∃ part others, Expands definitions fuel active s part ∧
        expandStmts definitions fuel active rest = .ok others ∧ lowered = part ++ others := by
  rw [expandStmts_eq, lowerEach_cons_eq_ok_iff, ← expandStmts_eq]
  refine exists_congr fun part => exists_congr fun others => and_congr_left fun _ => ?_
  constructor
  · intro stepRan
    cases s with
    | use name tag =>
      generalize asked : useRule _ _ _ _ _ = given at stepRan
      cases used_of_useRule asked with
      | refused _ => cases stepRan
      | circular _ _ => cases stepRan
      | entered found inactive =>
        cases fuel with
        | zero => cases stepRan
        | succ fuel => exact .use found inactive stepRan
    | defineExpr name body tag => cases stepRan
    | defineBlock name body tag => cases stepRan
    | _ =>
      obtain ⟨s', revised, rfl⟩ := bind_pure_eq_ok_iff.mp stepRan
      exact .revised rfl revised
  · intro expands
    cases expands with
    | use found inactive bodyRan =>
      rw [useRule_of_block found inactive]
      exact bodyRan
    | revised plain revised =>
      rw [useRule_of_not_isDefinitional plain]
      exact bind_pure_eq_ok_iff.mpr ⟨_, revised, rfl⟩

theorem expandStmts_within {all : Table Definition} (within : Within definitions all) {more : Nat}
    (enough : fuel ≤ more) (ran : expandStmts definitions fuel active statements = .ok lowered)
    (undefined : ∀ name, Mentioned name lowered → all.get? name = none) :
    expandStmts all more active statements = .ok lowered := by
  induction fuel using Nat.strongRecOn generalizing more active statements lowered with
  | ind fuel ih =>
    induction statements generalizing lowered with
    | nil =>
      rw [expandStmts_nil] at ran ⊢
      exact ran
    | cons s rest ihRest =>
      obtain ⟨part, others, expands, othersRan, rfl⟩ := expandStmts_cons_eq_ok_iff.mp ran
      have partUndefined : ∀ name, Mentioned name part → all.get? name = none :=
        fun name inPart => undefined name (inPart.append_left others)
      have othersSame := ihRest othersRan fun name inOthers =>
        undefined name (inOthers.append_right part)
      refine expandStmts_cons_eq_ok_iff.mpr ⟨part, others, ?_, othersSame, rfl⟩
      cases expands with
      | use found inactive bodyRan =>
        rename_i smaller name tag body
        cases more with
        | zero => omega
        | succ more =>
          have bodySame := ih smaller (Nat.lt_succ_self smaller)
            (Nat.le_of_succ_le_succ enough) bodyRan partUndefined
          exact .use (within _ _ found) inactive bodySame
      | revised plain revised =>
        have same := Stmt.revise_extends (expandExpr_within within enough) revised
          fun name hasPart => partUndefined name ⟨_, mem_singleton_self _, hasPart⟩
        exact .revised plain same

/-! ## Programs -/

variable {program : List Stmt}

/-- What two programs without common definitions expand to, they expand to together, if the names
that are mentioned in the end are reserved. -/
theorem lower_append {front back first second : List Stmt}
    (apart : ∀ name ∈ definedNames front, name ∉ definedNames back)
    (firstRan : lower registry front = .ok first) (secondRan : lower registry back = .ok second)
    (reserved : ∀ name, Mentioned name (first ++ second) → registry.isReserved name = true) :
    lower registry (front ++ back) = .ok (first ++ second) := by
  obtain ⟨frontCollected, frontRan, firstExpanded⟩ := bind_eq_ok_iff.mp firstRan
  obtain ⟨backCollected, backRan, secondExpanded⟩ := bind_eq_ok_iff.mp secondRan
  obtain ⟨frontEntries, frontFree, frontKept⟩ := collect_eq_ok_iff.mp frontRan
  obtain ⟨backEntries, backFree, backKept⟩ := collect_eq_ok_iff.mp backRan
  rw [show (Table.empty : Table Definition).entries = [] from rfl, nil_append]
    at frontEntries backEntries
  have distinct : ((definedEntries front ++ definedEntries back).map Prod.fst).Nodup := by
    rw [map_append, map_fst_definedEntries, map_fst_definedEntries]
    refine nodup_append.mpr ⟨?_, ?_, fun name inFront _ inBack same => ?_⟩
    · rw [← map_fst_definedEntries, ← frontEntries]
      exact frontCollected.definitions.nodup
    · rw [← map_fst_definedEntries, ← backEntries]
      exact backCollected.definitions.nodup
    · exact apart name inFront (same ▸ inBack)
  let all : Table Definition := ⟨definedEntries front ++ definedEntries back, distinct⟩
  have collected : collect registry .empty (front ++ back) =
      .ok ⟨all, frontCollected.statements ++ backCollected.statements⟩ := by
    refine collect_eq_ok_iff.mpr ⟨filterMap_append.symm, ?_, ?_⟩
    · rw [definedNames, filterMap_append]
      exact forall_mem_append.mpr ⟨frontFree, backFree⟩
    · rw [frontKept, backKept, filter_append]
  have withinFront : Within frontCollected.definitions all := by
    intro name definition found
    rw [Table.get?_eq_some_iff, frontEntries] at found
    exact Table.get?_eq_some_iff.mpr (mem_append_left _ found)
  have withinBack : Within backCollected.definitions all := by
    intro name definition found
    rw [Table.get?_eq_some_iff, backEntries] at found
    exact Table.get?_eq_some_iff.mpr (mem_append_right _ found)
  have undefined : ∀ name, Mentioned name (first ++ second) → all.get? name = none := by
    intro name mentioned
    refine Table.get?_eq_none_iff.mpr fun isKey => ?_
    have isDefined : name ∈ definedNames front ++ definedNames back := by
      rw [← map_fst_definedEntries, ← map_fst_definedEntries, ← map_append]
      exact isKey
    have unreserved := forall_mem_append.mpr ⟨frontFree, backFree⟩ name isDefined
    exact Bool.false_ne_true (unreserved.symm.trans (reserved name mentioned))
  have sizes : all.size = frontCollected.definitions.size + backCollected.definitions.size := by
    rw [Table.size, Table.size, Table.size, frontEntries, backEntries]
    exact length_append
  have firstSame := expandStmts_within withinFront (sizes ▸ Nat.le_add_right _ _) firstExpanded
    fun name inFirst => undefined name (inFirst.append_left second)
  have secondSame := expandStmts_within withinBack (sizes ▸ Nat.le_add_left _ _) secondExpanded
    fun name inSecond => undefined name (inSecond.append_right first)
  refine bind_eq_ok_iff.mpr ⟨_, collected, ?_⟩
  rw [expandStmts_eq] at firstSame secondSame ⊢
  exact lowerEach_append_eq_ok_iff.mpr ⟨first, second, firstSame, secondSame, rfl⟩

/-! ## Statements that are expanded -/

def BodiesHold (before : Stmt → Prop) (definitions : Table Definition) : Prop :=
  ∀ name body, definitions.get? name = some (.block body) → ∀ s ∈ body, before s

variable {before after : Stmt → Prop}

theorem forall_expandStmts (known : BodiesHold before definitions)
    (step : ∀ {fuel active s t}, before s →
      s.revise unrevised (expandExpr definitions fuel active) = .ok t → after t)
    (holds : ∀ s ∈ statements, before s)
    (ran : expandStmts definitions fuel active statements = .ok lowered) :
    ∀ t ∈ lowered, after t := by
  induction fuel using Nat.strongRecOn generalizing active statements lowered with
  | ind fuel ih =>
    induction statements generalizing lowered with
    | nil =>
      rw [expandStmts_nil] at ran
      cases ran
      exact forall_mem_nil _
    | cons s rest ihRest =>
      obtain ⟨sHolds, restHolds⟩ := forall_mem_cons.mp holds
      obtain ⟨part, others, expands, othersRan, rfl⟩ := expandStmts_cons_eq_ok_iff.mp ran
      refine forall_mem_append.mpr ⟨?_, ihRest restHolds othersRan⟩
      cases expands with
      | use found inactive bodyRan =>
        exact ih _ (Nat.lt_succ_self _) (known _ _ found) bodyRan
      | revised plain revised => exact forall_mem_singleton.mpr (step sHolds revised)

theorem forall_lower
    (step : ∀ {definitions fuel active s t}, before s →
      s.revise unrevised (expandExpr definitions fuel active) = .ok t → after t)
    (holds : ∀ s ∈ program, before s)
    (bodies : ∀ s ∈ program, ∀ name body, s.definition? = some (name, .block body) →
      ∀ t ∈ body, before t)
    (ran : lower registry program = .ok lowered) : ∀ t ∈ lowered, after t := by
  obtain ⟨collected, collectedRan, expanded⟩ := bind_eq_ok_iff.mp ran
  have known : BodiesHold before collected.definitions := by
    intro name body found
    obtain ⟨s, member, word, defined, _⟩ := (get?_collect collectedRan).mp found
    exact bodies s member word body defined
  exact forall_expandStmts known step
    (fun s member => holds s ((mem_collect collectedRan).mp member).1) expanded

theorem not_isVoid_lower (solid : ∀ s ∈ program, s.isVoid = false)
    (ran : lower registry program = .ok lowered) : ∀ s ∈ lowered, s.isVoid = false := by
  refine forall_lower (fun sSolid revised => ?_) solid (fun s member name body defined => ?_) ran
  · refine Stmt.not_isVoid_revise ?_ sSolid revised
    intro e newTarget targetSolid unrevisedRan
    cases unrevisedRan
    exact targetSolid
  · cases s with
    | defineBlock _ statements _ =>
      cases defined
      have sSolid := solid _ member
      rw [Stmt.isVoid, Stmt.anyVoid_eq_any] at sSolid
      simpa using sSolid
    | _ => cases defined

end Definition

end AutomationScript
