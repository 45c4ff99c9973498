import AutomationScript.Proofs.Lowering.MatchedLists
import AutomationScript.Proofs.Lowering.MatchedResolutions
import AutomationScript.Proofs.Program.Unlocated

/-!
# Lowering programs without their locations

A program matches itself without its locations, so a lowering step gives the same for both, but for
locations.
-/

namespace AutomationScript

def Failure.unlocated : Failure → Failure
  | .refused reason => .refused { reason with location := none }
  | .defect found => .defect found

/-- The result of a step under a function that forgets locations. -/
def unlocating {α β : Type} (f : α → β) : Lowering α → Lowering β
  | .ok a => .ok (f a)
  | .error failure => .error failure.unlocated

theorem unlocating_bind {α β γ δ : Type}
    {f : α → γ} {g : β → δ} {x : Lowering α} {next : α → Lowering β} {next' : γ → Lowering δ}
    (same : ∀ a, next' (f a) = unlocating g (next a)) :
    (unlocating f x >>= next') = unlocating g (x >>= next) := by
  cases x with
  | error failure => rfl
  | ok a => exact same a

abbrev Revised.unlocated (r : Revised Expr) : Revised Expr :=
  r.map Expr.unlocated

/-- All is the same, but the second program has no locations. -/
def Slack.unlocated : Slack where
  places _ loc' := loc' = none
  lenient := False
  union first second := by rw [first, second]; rfl
  anywhere := False.elim

theorem Failure.Matches.eq_unlocated {failure failure' : Failure}
    (matched : failure.Matches .unlocated failure') : failure' = failure.unlocated := by
  cases failure with
  | refused reason =>
    cases failure' with
    | refused reason' =>
      obtain ⟨_, cause, nowhere⟩ := matched
      exact congrArg Failure.refused (by rw [← cause, ← nowhere])
    | defect found' => exact matched.elim
  | defect found =>
    cases failure' with
    | refused reason' => exact matched.elim
    | defect found' => exact congrArg Failure.defect matched

theorem Slack.Agree.eq_unlocating {α β : Type} {post : α → β → Prop} {f : α → β} {x : Lowering α}
    {x' : Lowering β} (agree : Slack.unlocated.Agree post x x') (same : ∀ {a b}, post a b → b = f a) :
    x' = unlocating f x := by
  cases x with
  | ok a =>
    cases x' with
    | ok b => exact congrArg Except.ok (same agree)
    | error failure' => exact agree.elim
  | error failure =>
    cases x' with
    | ok b => exact agree.elim
    | error failure' =>
      exact congrArg Except.error (agree.resolve_left False.elim).eq_unlocated

theorem forall₂_map_self {α : Type} {f : α → α} {related : α → α → Prop} {values : List α}
    (each : ∀ value ∈ values, related value (f value)) :
    List.Forall₂ related values (values.map f) :=
  List.forall₂_map_right_iff.mpr (List.forall₂_same.mpr each)

/-! ## Expressions -/

theorem Ident.Matches.eq_unlocated {word word' : Ident} (matched : word.Matches .unlocated word') :
    word' = word.unlocated := by
  rw [Ident.unlocated, ← matched.1, ← matched.2]

section Expressions

variable {swap : Expr → Expr → Prop} {granted : Expr → Prop} {rigid operand : Bool} {e e' : Expr}

theorem Expr.matches_unlocated (e : Expr) : Matches .unlocated swap rigid operand e e.unlocated := by
  induction e using Expr.induction generalizing rigid operand with
  | atom e isAtom =>
    refine .atom ?_
    cases e with
    | string value loc => exact .string value rfl
    | number value loc => exact .number value rfl
    | boolean value loc => exact .boolean value rfl
    | ident word loc => exact .ident ⟨rfl, rfl⟩ rfl
    | eval text loc => exact .eval (.inr rfl) rfl
    | wildcard loc => exact .wildcard rfl
    | placeholder loc => exact .placeholder rfl
    | _ => cases isAtom
  | subscript base key loc ih => exact .subscript ⟨rfl, rfl⟩ ih rfl
  | branch isBranch values ih =>
    cases isBranch with
    | list fold loc =>
      rw [unlocated, unlocatedAll_eq_map]
      exact .ofList (forall₂_map_self fun value member => ih value member) rfl
    | compound operator loc =>
      rw [unlocated, unlocatedAll_eq_map]
      exact .ofCompound (forall₂_map_self fun arg member => ih arg member) rfl

theorem Expr.Matches.eq_unlocated (matched : Matches .unlocated swap rigid operand e e') :
    e' = e.unlocated := by
  induction matched with
  | swapped lenient _ => exact lenient.elim
  | atom atoms =>
    cases atoms with
    | ident words placed => rw [unlocated, words.eq_unlocated, placed]
    | eval texts placed => rw [unlocated, texts.resolve_left False.elim, placed]
    | string _ placed | number _ placed | boolean _ placed | wildcard placed
    | placeholder placed => rw [unlocated, placed]
  | subscript bases _ placed ih => rw [unlocated, bases.eq_unlocated, ih, placed]
  | list fold length _ placed ih =>
    have all := eq_map_of_forall₂ (List.forall₂_iff_zip.mpr ⟨length, ih⟩)
    rw [unlocated, unlocatedAll_eq_map, all, placed]
  | compound operator length _ placed ih =>
    have all := eq_map_of_forall₂ (List.forall₂_iff_zip.mpr ⟨length, ih⟩)
    rw [unlocated, unlocatedAll_eq_map, all, placed]

theorem Expr.FitsRoot.eq_unlocated (matched : FitsRoot .unlocated granted e e') :
    e' = e.unlocated :=
  matched.elim Matches.eq_unlocated fun impossible => impossible.1.elim

theorem Slack.Revisions.eq_unlocated {post : Expr → Expr → Prop} {r r' : Revised Expr}
    (revised : Slack.unlocated.Revisions post r r')
    (same : ∀ {e e'}, post e e' → e' = e.unlocated) : r' = r.unlocated := by
  rw [Revised.unlocated, Revised.map, ← same revised.1, ← revised.2.resolve_left False.elim]

end Expressions

section References

variable (registry : Registry) (e : Expr)

theorem Lists.resolveRoot_unlocated :
    resolveRoot registry e.unlocated = unlocating Revised.unlocated (resolveRoot registry e) :=
  (agree_resolveRoot registry (.inl e.matches_unlocated)).eq_unlocating
    fun revised => revised.eq_unlocated Expr.FitsRoot.eq_unlocated

theorem Alias.resolve_unlocated :
    resolve registry e.unlocated = unlocating Revised.unlocated (resolve registry e) :=
  ((agree_resolve registry).root (.inl e.matches_unlocated)).eq_unlocating
    fun revised => revised.eq_unlocated Expr.FitsRoot.eq_unlocated

theorem Families.resolve_unlocated :
    resolve registry e.unlocated = unlocating Revised.unlocated (resolve registry e) :=
  ((agree_resolve registry False.elim).root (.inl e.matches_unlocated)).eq_unlocating
    fun revised => revised.eq_unlocated Expr.FitsRoot.eq_unlocated

end References

/-! ## Statements -/

section Statements

variable {value condition block : Expr → Expr → Prop} {defines : Stmt → Stmt → Prop}

theorem Tag.Matches.eq_unlocated {tag tag' : Tag} (matched : tag.Matches .unlocated tag') :
    tag' = tag.unlocated := by
  rw [Tag.unlocated, ← matched.mark.resolve_left False.elim, ← matched.loc]

theorem rel_map_unlocated {related : Expr → Expr → Prop} (own : Option Expr)
    (matched : ∀ e, related e e.unlocated) : Option.Rel related own (own.map Expr.unlocated) := by
  cases own with
  | none => exact .none
  | some e => exact .some (matched e)

theorem TriggerArg.matches_unlocated (arg : TriggerArg) : arg.Matches .unlocated arg.unlocated where
  kind := ⟨rfl, rfl⟩
  id := ⟨rfl, rfl⟩
  count := rel_map_unlocated arg.count Expr.matches_unlocated
  loc := rfl

theorem TriggerArg.Matches.eq_unlocated {arg arg' : TriggerArg}
    (matched : arg.Matches .unlocated arg') : arg' = arg.unlocated := by
  have count := eq_map_of_rel matched.count Expr.Matches.eq_unlocated
  rw [TriggerArg.unlocated, ← count, ← matched.kind.eq_unlocated, ← matched.id.eq_unlocated,
    ← matched.loc]

theorem Stmt.matches_unlocated (s : Stmt) (values : ∀ e, value e e.unlocated)
    (conditions : ∀ e, condition e e.unlocated) (blocks : ∀ e, block e e.unlocated)
    (related : defines s s.unlocated) :
    s.Matches .unlocated value condition block defines s.unlocated := by
  have tags (tag : Tag) : tag.Matches .unlocated tag.unlocated := ⟨rfl, .inr rfl⟩
  cases s with
  | assign target right own tag =>
    exact .assign target.matches_unlocated (values right) (rel_map_unlocated own conditions) (tags tag)
  | openBlock outer tag => exact .openBlock (blocks outer) (tags tag)
  | closeBlock tag => exact .closeBlock (tags tag)
  | trigger start actions tag =>
    exact .trigger start.matches_unlocated
      (forall₂_map_self fun action _ => action.matches_unlocated) (tags tag)
  | defineExpr name body tag => exact .defineExpr related
  | defineBlock name body tag => exact .defineBlock related
  | use name tag => exact .use ⟨rfl, rfl⟩ (tags tag)

theorem Stmt.Matches.eq_unlocated {s s' : Stmt}
    (matched : s.Matches .unlocated value condition block defines s')
    (values : ∀ {e e'}, value e e' → e' = e.unlocated)
    (conditions : ∀ {e e'}, condition e e' → e' = e.unlocated)
    (blocks : ∀ {e e'}, block e e' → e' = e.unlocated)
    (defined : ∀ {s s'}, defines s s' → s' = s.unlocated) : s' = s.unlocated := by
  cases matched with
  | assign targets rights owns tags =>
    rw [unlocated, targets.eq_unlocated, values rights, eq_map_of_rel owns conditions,
      tags.eq_unlocated]
  | openBlock outers tags => rw [unlocated, blocks outers, tags.eq_unlocated]
  | closeBlock tags => rw [unlocated, tags.eq_unlocated]
  | trigger starts acts tags =>
    have all := eq_map_of_forall₂ (acts.imp fun _ _ act => act.eq_unlocated)
    rw [unlocated, starts.eq_unlocated, all, tags.eq_unlocated]
  | use names tags => rw [unlocated, names.eq_unlocated, tags.eq_unlocated]
  | defineExpr related => exact defined related
  | defineBlock related => exact defined related

end Statements

end AutomationScript
