import AutomationScript.Proofs.Lowering.Lists

/-!
# What stands somewhere in an expression

A property that an expression has because one of its parts does is found again after a step.
Resolving lists moves parts around: an operator over a list takes what stands beside the list along
to every element.  Only a list without elements takes it away.
-/

namespace AutomationScript

open List

variable {e : Expr} {values : List Expr}

namespace Expr

/-- A list has the property if an element does, and an operator if an operand does. -/
def Surfaces (holds : Expr → Prop) : Prop :=
  ∀ {build values value}, Branch build → value ∈ values → holds value → holds (build values)

/-- Lists and operators have the property exactly if one of their parts does. -/
def Spreads (holds : Expr → Prop) : Prop :=
  ∀ {build values}, Branch build → (holds (build values) ↔ ∃ value ∈ values, holds value)

theorem Spreads.surfaces {holds : Expr → Prop} (spreads : Spreads holds) : Surfaces holds :=
  fun isBranch member found => (spreads isBranch).mpr ⟨_, member, found⟩

/-- The expression is neither a list nor an operator. -/
def isSingle : Expr → Bool
  | .list _ _ _ => false
  | .compound _ _ _ => false
  | _ => true

theorem isSingle_of_isAtom (isAtom : e.isAtom = true) : e.isSingle = true := by
  cases e with
  | list values fold loc => cases isAtom
  | compound operator args loc => cases isAtom
  | _ => rfl

/-! ## Revisions -/

section Revisions

variable {rule : Expr → Option (Lowering (Revised Expr))} {before after : Expr → Prop}

/-- The rule looks at no list and no operator as a whole. -/
def OpensUp (rule : Expr → Option (Lowering (Revised Expr))) : Prop :=
  ∀ {build}, Branch build → ∀ values, rule (build values) = none

/-- A revision finds a property again if its rule does so in what is neither a list nor an
operator. -/
theorem Spreads.revise (spreads : Spreads before) (surfaces : Surfaces after)
    (opens : OpensUp rule)
    (single : ∀ {e revised}, isSingle e = true → before e → e.revise rule = .ok revised →
      after revised.value)
    (e : Expr) (holds : before e) {revised : Revised Expr} (ran : e.revise rule = .ok revised) :
    after revised.value := by
  induction e using Expr.induction generalizing revised with
  | atom e isAtom => exact single (isSingle_of_isAtom isAtom) holds ran
  | subscript base key loc _ => exact single rfl holds ran
  | branch isBranch values ih =>
    rw [isBranch.revise (opens isBranch values)] at ran
    obtain ⟨newValues, valuesRan, rfl⟩ := bind_pure_eq_ok_iff.mp ran
    obtain ⟨value, member, valueHolds⟩ := (spreads isBranch).mp holds
    obtain ⟨found, foundRan, inside⟩ := exists_of_mem_of_reviseList valuesRan member
    exact surfaces isBranch inside (ih value member valueHolds foundRan)

end Revisions

def isEmptyList : Expr → Bool
  | .list [] _ _ => true
  | _ => false

theorem not_isEmptyList_of_ne_nil (nonempty : values ≠ []) (fold : Option Fold)
    (loc : Option Location) : (Expr.list values fold loc).isEmptyList = false := by
  cases values with
  | nil => exact absurd rfl nonempty
  | cons _ _ => rfl

theorem isList_of_isEmptyList (empty : e.isEmptyList = true) : e.isList = true := by
  cases e with
  | list values fold loc => rfl
  | _ => cases empty

end Expr

/-! ## Lists -/

namespace Lists

variable {holds : Expr → Prop}
variable {loc : Option Location}

theorem surfaces_foldl (surfaces : Expr.Surfaces holds) (operator : Operator)
    (loc : Option Location) (first : Expr) (rest : List Expr)
    (inside : ∃ value ∈ first :: rest, holds value) :
    holds (rest.foldl (fun all next => Expr.compound operator [all, next] loc) first) := by
  induction rest generalizing first with
  | nil =>
    obtain ⟨value, member, found⟩ := inside
    rw [mem_singleton.mp member] at found
    exact found
  | cons next others ih =>
    obtain ⟨value, member, found⟩ := inside
    apply ih
    have joined (here : value ∈ [first, next]) :
        holds (Expr.compound operator [first, next] loc) :=
      surfaces (.compound operator loc) here found
    rcases mem_cons.mp member with rfl | member
    · exact ⟨_, mem_cons_self, joined (by simp)⟩
    · rcases mem_cons.mp member with rfl | further
      · exact ⟨_, mem_cons_self, joined (by simp)⟩
      · exact ⟨value, mem_cons_of_mem _ further, found⟩

theorem surfaces_foldValues (surfaces : Expr.Surfaces holds) {fold : Option Fold}
    (ran : foldValues fold loc values = .ok e) (inside : ∃ value ∈ values, holds value) :
    holds e := by
  unfold foldValues at ran
  cases fold with
  | none => cases ran
  | some fold =>
    cases values with
    | nil => cases ran
    | cons first rest =>
      cases ran
      exact surfaces_foldl surfaces fold.operator loc first rest inside

variable {before after : List Expr}

theorem mem_append_cons_iff {list : Expr} :
    e ∈ before ++ list :: after ↔ e ∈ before ++ after ∨ e = list := by
  rw [mem_append, mem_cons, mem_append, ← or_assoc, or_right_comm]

theorem foldValues_nil_ne_ok (fold : Option Fold) (loc : Option Location) (e : Expr) :
    foldValues fold loc [] ≠ .ok e := by
  intro ran
  cases fold <;> cases ran

/-- What stands beside or in a list is in what the operator gives for some element. -/
theorem surfaces_results (surfaces : Expr.Surfaces holds) (operator : Operator)
    {elements : List Expr} {element : Expr} (picked : element ∈ elements)
    (inside : (∃ e ∈ before ++ after, holds e) ∨ ∃ e ∈ elements, holds e) :
    ∃ value ∈ elements.map fun element =>
        Expr.compound operator (before ++ element :: after) element.loc,
      holds value := by
  rcases inside with ⟨e, beside, found⟩ | ⟨e, member, found⟩
  · refine ⟨_, mem_map_of_mem picked, surfaces (.compound operator _) ?_ found⟩
    exact mem_append_cons_iff.mpr (.inl beside)
  · refine ⟨_, mem_map_of_mem member, surfaces (.compound operator _) ?_ found⟩
    exact mem_append_cons_iff.mpr (.inr rfl)

theorem surfaces_distribute (surfaces : Expr.Surfaces holds) {operator : Operator}
    {elements : List Expr} {fold : Option Fold} {listLoc : Option Location}
    (ran : distribute operator before (.list elements fold listLoc) after loc = .ok e)
    (inside : elements ≠ [] → (∃ e ∈ before ++ after, holds e) ∨ ∃ e ∈ elements, holds e) :
    holds e ∨ e.isEmptyList = true := by
  unfold distribute at ran
  dsimp only at ran
  cases elements with
  | nil =>
    by_cases boolean : operator.producesBoolean = true
    · rw [if_pos boolean] at ran
      exact absurd ran (foldValues_nil_ne_ok fold listLoc e)
    · rw [if_neg boolean] at ran
      cases ran
      exact .inr rfl
  | cons first rest =>
    have results :=
      surfaces_results surfaces operator mem_cons_self (inside (cons_ne_nil _ _))
    by_cases boolean : operator.producesBoolean = true
    · rw [if_pos boolean] at ran
      exact .inl (surfaces_foldValues surfaces ran results)
    · rw [if_neg boolean] at ran
      cases ran
      obtain ⟨value, member, found⟩ := results
      exact .inl (surfaces (.list fold loc) member found)

/-- What stands in an operand is in the operator's result, unless there is nothing left. -/
theorem spreads_applyOperator (spreads : Expr.Spreads holds) {operator : Operator}
    {args : Revised (List Expr)} {revised : Revised Expr}
    (ran : applyOperator operator args loc = .ok revised)
    (inside : ∃ arg ∈ args.value, holds arg ∨ arg.isEmptyList = true) :
    holds revised.value ∨ revised.value.isEmptyList = true := by
  obtain ⟨arg, member, found⟩ := inside
  rcases applyOperator_eq_ok_cases ran with ⟨noList, rfl⟩ |
    ⟨before, elements, fold, listLoc, after, result, whole, beforeNoList, afterNoList, distributed,
      rfl⟩
  · rcases found with found | empty
    · exact .inl (spreads.surfaces (.compound operator loc) member found)
    · cases (noList arg member).symm.trans (Expr.isList_of_isEmptyList empty)
  · apply surfaces_distribute spreads.surfaces distributed
    intro nonempty
    rw [whole] at member
    -- An operand without elements is the list itself, and the list has some.
    rcases found with found | empty
    · rcases mem_append_cons_iff.mp member with isBeside | rfl
      · exact .inl ⟨arg, isBeside, found⟩
      · exact .inr ((spreads (.list fold listLoc)).mp found)
    · rcases mem_append_cons_iff.mp member with isBeside | rfl
      · have noList := forall_mem_append.mpr ⟨beforeNoList, afterNoList⟩ arg isBeside
        cases noList.symm.trans (Expr.isList_of_isEmptyList empty)
      · cases (Expr.not_isEmptyList_of_ne_nil nonempty fold listLoc).symm.trans empty

theorem surfaces_elements (surfaces : Expr.Surfaces holds)
    (noList : ∀ value ∈ values, value.isList = false)
    (inside : ∃ value ∈ values, holds value ∨ value.isEmptyList = true) (fold : Option Fold)
    (loc : Option Location) : holds (.list values fold loc) := by
  obtain ⟨value, member, found⟩ := inside
  rcases found with found | empty
  · exact surfaces (.list fold loc) member found
  · cases (noList value member).symm.trans (Expr.isList_of_isEmptyList empty)

end Lists

end AutomationScript
