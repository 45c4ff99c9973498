import AutomationScript.Proofs.Lowering.BlockMeaning
import AutomationScript.Proofs.Lowering.Lists
import AutomationScript.Proofs.Lowering.Placeholders
import AutomationScript.Proofs.Lowering.Unlocated

/-!
# Lowering before and after blocks are flattened

Five steps stand between the expansion of definitions and the flattening of blocks.  Each of them
distributes over blocks (`Distributes`): what it makes of an assignment under the condition of a
block is, but for locations, what it makes of the assignment, under what it makes of the condition.
So it may come after the flattening instead (`Distributes.flatten_lowerEach`).
-/

namespace AutomationScript

open List

variable {blocks : List Expr} {part lowered : List Stmt} {s : Stmt} {here : Revised Expr}

/-! ## Statements under blocks -/

def Stmt.isAssign : Stmt → Bool
  | .assign _ _ _ _ => true
  | _ => false

theorem nestedCondition_unlocated (blocks : List Expr) (own : Option Expr) :
    nestedCondition (blocks.map Expr.unlocated) (own.map Expr.unlocated) =
      (nestedCondition blocks own).map Expr.unlocated := by
  induction blocks with
  | nil => rfl
  | cons block inner ih =>
    rw [map_cons, nestedCondition, ih, nestedCondition]
    cases nestedCondition inner own with
    | none => rfl
    | some rest => simp [Expr.unlocated, Location.unionAll]

theorem Tag.rebuilt_rebuilt (tag : Tag) : tag.rebuilt.rebuilt = tag.rebuilt := by
  simp only [Tag.rebuilt, Option.map_map]
  rfl

namespace Stmt

theorem isAssign_governed (blocks : List Expr) (s : Stmt) :
    (s.governed blocks).isAssign = s.isAssign := by
  cases s <;> rfl

theorem governed_nil (s : Stmt) : s.governed [] = s := by
  cases s <;> rfl

theorem governed_governed (outer inner : List Expr) (s : Stmt) :
    (s.governed inner).governed outer = s.governed (outer ++ inner) := by
  cases s with
  | assign target value own tag =>
    have sameTag : (if outer.isEmpty then (if inner.isEmpty then tag else tag.rebuilt)
          else (if inner.isEmpty then tag else tag.rebuilt).rebuilt) =
        if (outer ++ inner).isEmpty then tag else tag.rebuilt := by
      cases outer with
      | nil => rfl
      | cons first others =>
        cases inner with
        | nil => rfl
        | cons next rest => exact tag.rebuilt_rebuilt
    rw [governed, governed, governed, sameTag, nestedCondition_append]
  | _ => rfl

theorem governed_unlocated (blocks : List Expr) (s : Stmt) :
    s.unlocated.governed (blocks.map Expr.unlocated) = (s.governed blocks).unlocated := by
  cases s with
  | assign target value own tag =>
    have sameTag : (if blocks.isEmpty then tag.unlocated else tag.unlocated.rebuilt) =
        (if blocks.isEmpty then tag else tag.rebuilt).unlocated := by
      split <;> rfl
    simp only [unlocated, governed, nestedCondition_unlocated, isEmpty_map, sameTag]
  | _ => rfl

end Stmt

theorem Blocks.flatten_append_assigns {rest : List Stmt} (assigns : ∀ s ∈ part, s.isAssign = true)
    (ran : flatten blocks (part ++ rest) = .ok lowered) :
    ∃ others, flatten blocks rest = .ok others ∧
      lowered = part.map (Stmt.governed blocks.reverse) ++ others := by
  induction part generalizing lowered with
  | nil => exact ⟨lowered, ran, rfl⟩
  | cons s part ih =>
    obtain ⟨isAssign, othersAssign⟩ := forall_mem_cons.mp assigns
    cases s with
    | assign target value own tag =>
      rw [cons_append, flatten_assign] at ran
      obtain ⟨later, laterRan, rfl⟩ := bind_pure_eq_ok_iff.mp ran
      obtain ⟨others, restRan, rfl⟩ := ih othersAssign laterRan
      exact ⟨others, restRan, rfl⟩
    | _ => cases isAssign

/-- Every statement of a flattened program is one of the program, under conditions of its blocks. -/
theorem Blocks.exists_of_mem_flatten {program : List Stmt}
    (ran : flatten blocks program = .ok lowered) {t : Stmt} (member : t ∈ lowered) :
    ∃ s ∈ program, s.isBlockMark = false ∧ ∃ conditions : List Expr, t = s.governed conditions ∧
      ∀ condition ∈ conditions, condition ∈ blocks ∨ ∃ tag, .openBlock condition tag ∈ program := by
  induction program generalizing blocks lowered with
  | nil =>
    cases blocks with
    | nil =>
      cases ran
      cases member
    | cons block outer => cases ran
  | cons s rest ih =>
    -- A statement further on has its conditions from the same blocks, or from this opening.
    have later : ∀ {more : List Expr} {others : List Stmt}, flatten more rest = .ok others →
        t ∈ others →
        (∀ condition ∈ more, condition ∈ blocks ∨ ∃ tag, s = .openBlock condition tag) →
        ∃ s' ∈ s :: rest, s'.isBlockMark = false ∧ ∃ conditions : List Expr,
          t = s'.governed conditions ∧ ∀ condition ∈ conditions,
            condition ∈ blocks ∨ ∃ tag, .openBlock condition tag ∈ s :: rest := by
      intro more others othersRan inOthers known
      obtain ⟨s', inRest, noMark, conditions, rfl, from'⟩ := ih othersRan inOthers
      refine ⟨s', mem_cons_of_mem s inRest, noMark, conditions, rfl, ?_⟩
      intro condition isOne
      rcases from' condition isOne with inMore | ⟨tag, opens⟩
      · rcases known condition inMore with inBlocks | ⟨tag, rfl⟩
        · exact .inl inBlocks
        · exact .inr ⟨tag, mem_cons_self⟩
      · exact .inr ⟨tag, mem_cons_of_mem s opens⟩
    cases s with
    | openBlock condition tag =>
      refine later ran member fun other inMore => ?_
      rcases mem_cons.mp inMore with rfl | inBlocks
      · exact .inr ⟨tag, rfl⟩
      · exact .inl inBlocks
    | closeBlock tag =>
      cases blocks with
      | nil => cases ran
      | cons block outer =>
        exact later ran member fun other inOuter =>
          .inl (mem_cons_of_mem block inOuter)
    | assign target value own tag =>
      rw [flatten_assign] at ran
      obtain ⟨others, othersRan, rfl⟩ := bind_pure_eq_ok_iff.mp ran
      rcases mem_cons.mp member with rfl | inOthers
      · refine ⟨_, mem_cons_self, rfl, blocks.reverse, rfl, ?_⟩
        intro condition isOne
        exact .inl (mem_reverse.mp isOne)
      · exact later othersRan inOthers fun _ inBlocks => .inl inBlocks
    | trigger awaited actions tag =>
      cases blocks with
      | cons block outer => cases ran
      | nil =>
        obtain ⟨others, othersRan, rfl⟩ := bind_pure_eq_ok_iff.mp ran
        rcases mem_cons.mp member with rfl | inOthers
        · exact ⟨_, mem_cons_self, rfl, [], rfl, forall_mem_nil _⟩
        · exact later othersRan inOthers fun _ inBlocks => .inl inBlocks
    | _ => cases ran

/-! ## Steps that distribute over blocks -/

/-- The step lowers statement by statement.  It takes the condition of a block to one to which
`block` relates it, and an assignment under such a condition to the assignments that it makes of
the assignment itself, under the other condition.  Statements of other kinds are handed on. -/
structure Distributes (lower : Stmt → Lowering (List Stmt)) (block : Expr → Expr → Prop) :
    Prop where
  opened : ∀ {condition : Expr} {tag : Tag} {part : List Stmt},
    lower (.openBlock condition tag) = .ok part →
      ∃ condition' tag', part = [.openBlock condition' tag'] ∧ block condition condition'
  assigns : ∀ {s : Stmt} {part : List Stmt},
    s.isAssign = true → lower s = .ok part → ∀ t ∈ part, t.isAssign = true
  governed : ∀ {s : Stmt} {part : List Stmt} {condition condition' : Expr},
    s.isAssign = true → lower s = .ok part → block condition condition' →
      ∃ part', lower (s.governed [condition]) = .ok part' ∧
        part'.map Stmt.unlocated = part.map fun t => (t.governed [condition']).unlocated
  closed : ∀ tag : Tag, lower (.closeBlock tag) = .ok [.closeBlock tag]
  handsOn : ∀ {s : Stmt}, s.isAssign = false → s.isBlockMark = false → lower s = .ok [s]

namespace Distributes

variable {lower : Stmt → Lowering (List Stmt)} {block : Expr → Expr → Prop}

theorem governedAll (distributes : Distributes lower block) {blocks' : List Expr}
    (related : Forall₂ block blocks blocks') (isAssign : s.isAssign = true)
    (ran : lower s = .ok part) :
    ∃ part', lower (s.governed blocks) = .ok part' ∧
      part'.map Stmt.unlocated = part.map fun t => (t.governed blocks').unlocated := by
  induction related with
  | nil =>
    refine ⟨part, ?_, ?_⟩
    · rw [Stmt.governed_nil]
      exact ran
    · simp only [Stmt.governed_nil]
  | @cons condition condition' inner inner' here _ ih =>
    obtain ⟨middle, middleRan, middleSame⟩ := ih
    have stillAssign : (s.governed inner).isAssign = true := by
      rw [Stmt.isAssign_governed]
      exact isAssign
    obtain ⟨part', partRan, partSame⟩ := distributes.governed stillAssign middleRan here
    rw [Stmt.governed_governed] at partRan
    refine ⟨part', partRan, ?_⟩
    have outermost : ∀ t : Stmt, (t.governed [condition']).unlocated =
        t.unlocated.governed [condition'.unlocated] := fun t =>
      (t.governed_unlocated [condition']).symm
    calc part'.map Stmt.unlocated
        = (middle.map Stmt.unlocated).map (Stmt.governed [condition'.unlocated]) := by
          rw [partSame, map_map]
          exact map_congr_left fun t _ => outermost t
      _ = part.map fun t => ((t.governed inner').governed [condition']).unlocated := by
          rw [middleSame, map_map]
          exact map_congr_left fun t _ => (outermost (t.governed inner')).symm
      _ = part.map fun t => (t.governed (condition' :: inner')).unlocated := by
          simp only [Stmt.governed_governed, singleton_append]

/-- If the blocks can be flattened after the step, they can be flattened before it. -/
theorem flatten_lowerEach (distributes : Distributes lower block) {program flat' : List Stmt}
    {blocks' : List Expr} (related : Forall₂ block blocks blocks')
    (ran : lowerEach lower program = .ok lowered)
    (flattened : Blocks.flatten blocks' lowered = .ok flat') :
    ∃ flat early, Blocks.flatten blocks program = .ok flat ∧ lowerEach lower flat = .ok early ∧
      early.map Stmt.unlocated = flat'.map Stmt.unlocated := by
  induction program generalizing lowered flat' blocks blocks' with
  | nil =>
    cases ran
    cases related with
    | nil => exact ⟨[], [], rfl, rfl, congrArg (List.map _) (Except.ok.inj flattened)⟩
    | cons _ _ => cases flattened
  | cons s rest ih =>
    obtain ⟨part, others, partRan, othersRan, rfl⟩ := lowerEach_cons_eq_ok_iff.mp ran
    cases s with
    | openBlock condition tag =>
      obtain ⟨condition', tag', rfl, here⟩ := distributes.opened partRan
      exact ih (.cons here related) othersRan flattened
    | assign target value own tag =>
      obtain ⟨laterFlat, laterRan, rfl⟩ :=
        Blocks.flatten_append_assigns (distributes.assigns rfl partRan) flattened
      obtain ⟨flat, early, flatRan, earlyRan, same⟩ := ih related othersRan laterRan
      have outermostFirst := rel_reverse related
      obtain ⟨part', governedRan, partSame⟩ := distributes.governedAll outermostFirst rfl partRan
      refine ⟨(Stmt.assign target value own tag).governed blocks.reverse :: flat, part' ++ early,
        ?_, ?_, ?_⟩
      · rw [Blocks.flatten_assign]
        exact bind_pure_eq_ok_iff.mpr ⟨flat, flatRan, rfl⟩
      · exact lowerEach_cons_eq_ok_iff.mpr ⟨part', early, governedRan, earlyRan, rfl⟩
      · rw [map_append, map_append, partSame, same, map_map]
        rfl
    | closeBlock tag =>
      rw [distributes.closed] at partRan
      cases partRan
      cases related with
      | nil => cases flattened
      | cons _ outer => exact ih outer othersRan flattened
    | trigger awaited actions tag =>
      have handedOn := distributes.handsOn (s := .trigger awaited actions tag) rfl rfl
      rw [handedOn] at partRan
      cases partRan
      cases related with
      | cons _ _ => cases flattened
      | nil =>
        obtain ⟨laterFlat, laterRan, rfl⟩ := bind_pure_eq_ok_iff.mp flattened
        obtain ⟨flat, early, flatRan, earlyRan, same⟩ := ih .nil othersRan laterRan
        refine ⟨.trigger awaited actions tag :: flat, .trigger awaited actions tag :: early,
          ?_, ?_, ?_⟩
        · exact bind_pure_eq_ok_iff.mpr ⟨flat, flatRan, rfl⟩
        · exact lowerEach_cons_eq_ok_iff.mpr ⟨_, early, handedOn, earlyRan, rfl⟩
        · rw [map_cons, map_cons, same]
    | defineExpr name body tag =>
      rw [distributes.handsOn rfl rfl] at partRan
      cases partRan
      cases flattened
    | defineBlock name body tag =>
      rw [distributes.handsOn rfl rfl] at partRan
      cases partRan
      cases flattened
    | use name tag =>
      rw [distributes.handsOn rfl rfl] at partRan
      cases partRan
      cases flattened

end Distributes

/-! ## Conditions under blocks -/

/-- A revision of conditions gives `condition'` for the condition of a block, alone and where it is
joined to another condition. -/
structure Joins (revise : Expr → Lowering (Revised Expr)) (condition condition' : Expr) :
    Prop where
  alone : ∃ revised, revise condition = .ok revised ∧ revised.value = condition'
  conjoined : ∀ {own : Expr} {own' : Revised Expr}, revise own = .ok own' →
    ∃ revised, revise (Blocks.conjoin condition own) = .ok revised ∧
      revised.value.unlocated = (Blocks.conjoin condition' own'.value).unlocated

namespace Joins

variable {revise : Expr → Lowering (Revised Expr)} {condition condition' : Expr}

theorem reviseOption (joins : Joins revise condition condition') {own : Option Expr}
    {own' : Revised (Option Expr)} (ran : reviseOption revise own = .ok own') :
    ∃ revised, AutomationScript.reviseOption revise (nestedCondition [condition] own) =
        .ok revised ∧
      revised.value.map Expr.unlocated =
        (nestedCondition [condition'] own'.value).map Expr.unlocated := by
  cases own with
  | none =>
    cases ran
    obtain ⟨revised, revisedRan, rfl⟩ := joins.alone
    exact ⟨revised.map some, bind_pure_eq_ok_iff.mpr ⟨revised, revisedRan, rfl⟩, rfl⟩
  | some own =>
    obtain ⟨newOwn, ownRan, rfl⟩ := bind_pure_eq_ok_iff.mp ran
    obtain ⟨revised, revisedRan, same⟩ := joins.conjoined ownRan
    exact ⟨revised.map some, bind_pure_eq_ok_iff.mpr ⟨revised, revisedRan, rfl⟩,
      congrArg some same⟩

theorem ofArgs (args : ∀ {own : Expr} {here own' : Revised Expr}, revise condition = .ok here →
      revise own = .ok own' → ∀ loc, revise (.compound .and [condition, own] loc) =
        .ok ((Revised.map₂ List.cons here (.map₂ List.cons own' (.kept []))).map
          (.compound .and · loc)))
    (ran : revise condition = .ok here) :
    Joins revise condition here.value where
  alone := ⟨here, ran, rfl⟩
  conjoined := by
    intro own own' ownRan
    exact ⟨_, args ran ownRan _, by
      simp [Revised.map, Revised.map₂, Revised.kept, Blocks.conjoin, Expr.unlocated]⟩

theorem ofRule {rule : Expr → Option (Lowering (Revised Expr))}
    (unanswered : ∀ args loc, rule (.compound .and args loc) = none)
    (ran : condition.revise rule = .ok here) : Joins (Expr.revise rule) condition here.value := by
  refine ofArgs ?_ ran
  intro own here own' hereRan ownRan loc
  rw [Expr.revise, unanswered, Expr.reviseAll, hereRan, Expr.reviseAll, ownRan]
  rfl

end Joins

theorem Stmt.ofParts_governed (target value : Revised Expr) (tag : Tag) {condition' : Expr}
    {joined own : Revised (Option Expr)}
    (same : joined.value.map Expr.unlocated =
      (nestedCondition [condition'] own.value).map Expr.unlocated) :
    (Stmt.ofParts target value joined tag.rebuilt).unlocated =
      ((Stmt.ofParts target value own tag).governed [condition']).unlocated := by
  have sameTag : ∀ fresh fresh' : Bool,
      (if fresh then tag.rebuilt.rebuilt else tag.rebuilt) =
        (if fresh' then tag.rebuilt else tag).rebuilt := by
    intro fresh fresh'
    cases fresh <;> cases fresh' <;> simp [Tag.rebuilt_rebuilt]
  simp only [Stmt.ofParts, Stmt.governed, Stmt.unlocated, same, isEmpty_cons,
    Bool.false_eq_true, if_false]
  rw [sameTag]

/-! ## The five steps -/

/-- The step lowers an assignment to one for each of several targets.  What it makes of the target
and the value does not depend on the condition, which is revised by itself. -/
def LowersApart (lower : Stmt → Lowering (List Stmt))
    (revise : Expr → Expr → Lowering (Revised Expr)) : Prop :=
  ∀ ⦃left right : Expr⦄ ⦃own : Option Expr⦄ ⦃tag : Tag⦄ ⦃part : List Stmt⦄,
    lower (.assign left right own tag) = .ok part →
      ∃ (targets : List (Revised Expr)) (newRight : Revised Expr) (newOwn : Revised (Option Expr)),
        reviseOption (revise left) own = .ok newOwn ∧
        part = targets.map (fun target => .ofParts target newRight newOwn tag) ∧
        ∀ {other : Option Expr} {newOther : Revised (Option Expr)} {otherTag : Tag},
          reviseOption (revise left) other = .ok newOther →
            lower (.assign left right other otherTag) =
              .ok (targets.map fun target => .ofParts target newRight newOther otherTag)

namespace LowersApart

variable {lower : Stmt → Lowering (List Stmt)} {revise : Expr → Expr → Lowering (Revised Expr)}

theorem assigns (apart : LowersApart lower revise) (isAssign : s.isAssign = true)
    (ran : lower s = .ok part) : ∀ t ∈ part, t.isAssign = true := by
  cases s with
  | assign left right own tag =>
    obtain ⟨targets, newRight, newOwn, _, rfl, _⟩ := apart ran
    intro t member
    obtain ⟨target, _, rfl⟩ := mem_map.mp member
    rfl
  | _ => cases isAssign

/-- The condition of a block can be joined before the step if revised conditions can be joined. -/
theorem governed (apart : LowersApart lower revise) {condition condition' : Expr}
    (isAssign : s.isAssign = true) (ran : lower s = .ok part)
    (joins : ∀ left, Joins (revise left) condition condition') :
    ∃ part', lower (s.governed [condition]) = .ok part' ∧
      part'.map Stmt.unlocated = part.map fun t => (t.governed [condition']).unlocated := by
  cases s with
  | assign left right own tag =>
    obtain ⟨targets, newRight, newOwn, ownRan, rfl, again⟩ := apart ran
    obtain ⟨joined, joinedRan, same⟩ := (joins left).reviseOption ownRan
    refine ⟨_, again joinedRan, ?_⟩
    rw [map_map, map_map]
    apply map_congr_left
    intro target _
    exact Stmt.ofParts_governed target newRight tag same
  | _ => cases isAssign

end LowersApart

theorem lowersApart_revise (target value : Expr → Lowering (Revised Expr)) :
    LowersApart (fun s => do return [← s.revise target value]) fun _ => value := by
  intro left right own tag part ran
  obtain ⟨lowered, loweredRan, rfl⟩ := bind_pure_eq_ok_iff.mp ran
  obtain ⟨newLeft, leftRan, continued⟩ := bind_eq_ok_iff.mp loweredRan
  obtain ⟨newRight, rightRan, continued⟩ := bind_eq_ok_iff.mp continued
  obtain ⟨newOwn, ownRan, rfl⟩ := bind_pure_eq_ok_iff.mp continued
  refine ⟨[newLeft], newRight, newOwn, ownRan, rfl, ?_⟩
  intro other newOther otherTag otherRan
  dsimp only
  rw [Stmt.revise, leftRan, rightRan, otherRan]
  rfl

/-- A step that revises the parts of statements distributes over blocks if its revision of
conditions does. -/
theorem distributes_revise {target value : Expr → Lowering (Revised Expr)}
    (joins : ∀ {condition : Expr} {here : Revised Expr}, value condition = .ok here →
      Joins value condition here.value) :
    Distributes (fun s => do return [← s.revise target value])
      fun condition condition' => ∃ here, value condition = .ok here ∧ here.value = condition' where
  opened := by
    intro condition tag part ran
    obtain ⟨opening, openingRan, rfl⟩ := bind_pure_eq_ok_iff.mp ran
    obtain ⟨here, hereRan, rfl⟩ := bind_pure_eq_ok_iff.mp openingRan
    exact ⟨_, _, rfl, here, hereRan, rfl⟩
  assigns := (lowersApart_revise target value).assigns
  governed := by
    rintro s part condition _ isAssign ran ⟨here, hereRan, rfl⟩
    exact (lowersApart_revise target value).governed isAssign ran fun _ => joins hereRan
  closed := fun _ => rfl
  handsOn := by
    intro s notAssign noMark
    cases s with
    | assign left right own tag => cases notAssign
    | openBlock condition tag => cases noMark
    | _ => rfl

namespace Wildcard

theorem distributes (registry : Registry) :
    Distributes (fun s => do return [← s.revise (expand registry) (expand registry)])
      fun condition condition' =>
        ∃ here, expand registry condition = .ok here ∧ here.value = condition' := by
  apply distributes_revise
  intro condition here ran
  refine Joins.ofArgs ?_ ran
  intro own here own' hereRan ownRan loc
  rw [expand, expandAll, hereRan, expandAll, ownRan]
  rfl

end Wildcard

namespace Alias

theorem distributes (registry : Registry) :
    Distributes (fun s => do return [← s.revise unrevised (resolve registry)])
      fun condition condition' =>
        ∃ here, resolve registry condition = .ok here ∧ here.value = condition' :=
  distributes_revise fun ran => Joins.ofRule (fun _ _ => rfl) ran

end Alias

namespace Families

theorem distributes (registry : Registry) :
    Distributes (fun s => do return [← s.revise (resolveTarget registry) (resolve registry)])
      fun condition condition' =>
        ∃ here, resolve registry condition = .ok here ∧ here.value = condition' :=
  distributes_revise fun ran => Joins.ofRule (fun _ _ => rfl) ran

end Families

namespace Lists

variable {registry : Registry}

/-- Conditions are no lists after they are resolved, so nothing is left to distribute. -/
theorem joins_resolveRoot {condition : Expr} (ran : resolveRoot registry condition = .ok here) :
    Joins (resolveRoot registry) condition here.value := by
  refine Joins.ofArgs ?_ ran
  intro own here own' hereRan ownRan loc
  obtain ⟨hereResolved, hereNoList⟩ := resolveRoot_eq_ok_iff.mp hereRan
  obtain ⟨ownResolved, ownNoList⟩ := resolveRoot_eq_ok_iff.mp ownRan
  apply resolveRoot_eq_ok_iff.mpr
  refine ⟨?_, rfl⟩
  have operands : resolveAll registry [condition, own] =
      .ok (.map₂ List.cons here (.map₂ List.cons own' (.kept []))) := by
    rw [resolveAll, hereResolved, resolveAll, ownResolved]
    rfl
  rw [resolve, operands]
  refine applyOperator_eq_compound .and loc fun e member => ?_
  rcases mem_pair.mp member with rfl | rfl
  · exact hereNoList
  · exact ownNoList

theorem lowersApart (registry : Registry) :
    LowersApart (lowerStmt registry) fun _ => resolveRoot registry := by
  intro left right own tag part ran
  obtain ⟨newRight, rightRan, continued⟩ := bind_eq_ok_iff.mp ran
  obtain ⟨newOwn, ownRan, continued⟩ := bind_eq_ok_iff.mp continued
  obtain ⟨targets, targetsRan, rfl⟩ := bind_pure_eq_ok_iff.mp continued
  refine ⟨targets, newRight, newOwn, ownRan, rfl, ?_⟩
  intro other newOther otherTag otherRan
  rw [lowerStmt, rightRan, otherRan, targetsRan]
  rfl

theorem distributes (registry : Registry) :
    Distributes (lowerStmt registry) fun condition condition' =>
      ∃ here, resolveRoot registry condition = .ok here ∧ here.value = condition' where
  opened := by
    intro condition tag part ran
    obtain ⟨here, hereRan, rfl⟩ := bind_pure_eq_ok_iff.mp ran
    exact ⟨_, _, rfl, here, hereRan, rfl⟩
  assigns := (lowersApart registry).assigns
  governed := by
    rintro s part condition _ isAssign ran ⟨here, hereRan, rfl⟩
    exact (lowersApart registry).governed isAssign ran fun _ => joins_resolveRoot hereRan
  closed := fun _ => rfl
  handsOn := by
    intro s notAssign noMark
    cases s with
    | assign left right own tag => cases notAssign
    | openBlock condition tag => cases noMark
    | _ => rfl

end Lists

/-! ### Placeholders

The condition of a block may have no placeholder, so filling in changes nothing in it, whatever
the key. -/

section Agreement

variable {rule rule' : Expr → Option (Lowering (Revised Expr))}

theorem Expr.revise_of_agrees
    (agrees : ∀ e, rule' e = rule e ∨ ∃ failure, rule e = some (.error failure)) (e : Expr)
    {revised : Revised Expr} (ran : e.revise rule = .ok revised) :
    e.revise rule' = .ok revised := by
  -- Where the first rule is silent the second one is too.
  have silent {e : Expr} (unanswered : rule e = none) : rule' e = none := by
    rcases agrees e with same | ⟨failure, fails⟩
    · exact same.trans unanswered
    · cases unanswered.symm.trans fails
  refine Expr.revise_induction
    (motive := fun e step => ∀ {revised}, step = .ok revised → e.revise rule' = .ok revised)
    ?_ ?_ ?_ ?_ e ran
  · intro e answer answered revised given
    rcases agrees e with same | ⟨failure, fails⟩
    · rw [Expr.revise_answered (same.trans answered), given]
    · cases given.symm.trans (Option.some.inj (answered.symm.trans fails))
  · intro e isAtom unanswered revised given
    rw [Expr.revise_atom rule' isAtom, silent unanswered]
    exact given
  · intro base key loc unanswered ih revised ran
    obtain ⟨newKey, keyRan, rfl⟩ := bind_pure_eq_ok_iff.mp ran
    rw [Expr.revise, silent unanswered]
    exact bind_pure_eq_ok_iff.mpr ⟨newKey, ih keyRan, rfl⟩
  · intro build isBranch values unanswered ih revised ran
    obtain ⟨newValues, valuesRan, rfl⟩ := bind_pure_eq_ok_iff.mp ran
    rw [isBranch.revise (silent unanswered)]
    have others := reviseList_of_each valuesRan fun value member _ found _ => ih value member found
    exact bind_pure_eq_ok_iff.mpr ⟨newValues, others, rfl⟩

end Agreement

namespace Placeholder

theorem fill_of_reject {e : Expr} (passes : reject e = .ok ()) (key : Option Ident) :
    fill key e = .ok (.kept e) := by
  obtain ⟨revised, filled, _⟩ := bind_pure_eq_ok_iff.mp passes
  have unchanged : revised = .kept e := by
    refine Keeping.kept ⟨fun {node answer} answered => ?_⟩ e filled
    cases node <;> cases answered
  rw [← unchanged]
  refine Expr.revise_of_agrees (fun node => ?_) e filled
  cases node with
  | placeholder loc => exact .inr ⟨_, rfl⟩
  | _ => exact .inl rfl

theorem lowersApart : LowersApart lowerStmt fun left => fill (keyOf? left) := by
  intro left right own tag part ran
  obtain ⟨⟨⟩, leftPasses, continued⟩ := bind_eq_ok_iff.mp ran
  obtain ⟨newRight, rightRan, continued⟩ := bind_eq_ok_iff.mp continued
  obtain ⟨newOwn, ownRan, rfl⟩ := bind_pure_eq_ok_iff.mp continued
  refine ⟨[.kept left], newRight, newOwn, ownRan, rfl, ?_⟩
  intro other newOther otherTag otherRan
  rw [lowerStmt, leftPasses]
  dsimp only [bind, Except.bind]
  rw [rightRan]
  dsimp only
  rw [otherRan]
  rfl

theorem distributes :
    Distributes lowerStmt fun condition condition' =>
      reject condition = .ok () ∧ condition' = condition where
  opened := by
    intro condition tag part ran
    obtain ⟨⟨⟩, passes, rfl⟩ := bind_pure_eq_ok_iff.mp ran
    exact ⟨condition, tag, rfl, passes, rfl⟩
  assigns := lowersApart.assigns
  governed := by
    rintro s part _ condition isAssign ran ⟨passes, rfl⟩
    exact lowersApart.governed isAssign ran fun left =>
      Joins.ofRule (fun _ _ => rfl) (fill_of_reject passes (keyOf? left))
  closed := fun _ => rfl
  handsOn := by
    intro s notAssign noMark
    cases s with
    | assign left right own tag => cases notAssign
    | openBlock condition tag => cases noMark
    | _ => rfl

end Placeholder

end AutomationScript
