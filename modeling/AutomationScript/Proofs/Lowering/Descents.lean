import AutomationScript.Lowering.Lists
import AutomationScript.Lowering.Wildcards
import AutomationScript.Proofs.Lowering.Revision

/-!
# Wildcards and lists, part by part

What is to be proved of expanding wildcards and of resolving lists is proved here in one induction,
over the parts of the expression and over the keys in it.
-/

namespace AutomationScript

namespace Wildcard

variable {registry : Registry}

theorem expandAll_eq_reviseList (values : List Expr) :
    expandAll registry values = reviseList (expand registry) values := by
  induction values with
  | nil => rfl
  | cons e rest ih => rw [expandAll, reviseList, ih]

theorem expand_atom {e : Expr} (isAtom : e.isAtom = true) (single : e.isWildcard = false) :
    expand registry e = pure (.kept e) := by
  cases e with
  | wildcard loc => cases single
  | subscript | list | compound => cases isAtom
  | _ => rfl

theorem expand_branch {build : List Expr → Expr} (isBranch : Expr.Branch build)
    (values : List Expr) :
    expand registry (build values) = (do
      let values ← reviseList (expand registry) values
      return values.map build) := by
  cases isBranch <;> dsimp only <;> rw [expand, expandAll_eq_reviseList]

theorem expandElements_cons (base : Ident) {e : Expr} (single : e.isWildcard = false)
    (rest : List Expr) :
    expandElements registry base (e :: rest) = (do
      let first ← expand registry e
      let others ← expandElements registry base rest
      return .map₂ List.cons first others) := by
  cases e with
  | wildcard loc => cases single
  | _ => rfl

theorem expandKey_of_single (base : Ident) {key : Expr} (single : key.isWildcard = false)
    (noList : key.isList = false) : expandKey registry base key = expand registry key := by
  cases key with
  | wildcard loc => cases single
  | list values fold loc => cases noList
  | _ => rfl

/-- To prove something of every expansion, and of every expansion of a key, look at one node at a
time. -/
theorem expand_induction (motive : Expr → Lowering (Revised Expr) → Prop)
    (within : Ident → Expr → Lowering (Revised Expr) → Prop)
    (atom : ∀ e, e.isAtom = true → e.isWildcard = false → motive e (pure (.kept e)))
    (wildcard : ∀ loc, motive (.wildcard loc) (refuse .wildcardWithoutFamily loc))
    (subscript : ∀ base key loc, within base key (expandKey registry base key) →
      motive (.subscript base key loc) (do
        let key ← expandKey registry base key
        return key.map (.subscript base · loc)))
    (branch : ∀ {build}, Expr.Branch build → ∀ values,
      (∀ value ∈ values, motive value (expand registry value)) → motive (build values) (do
        let values ← reviseList (expand registry) values
        return values.map build))
    (wildcardKey : ∀ base loc, within base (.wildcard loc) (do
      let values ← suffixes registry base loc
      return .new (.list values none loc)))
    (listKey : ∀ base values fold loc, (∀ value ∈ values, motive value (expand registry value)) →
      within base (.list values fold loc) (do
        let values ← expandElements registry base values
        return values.map (.list · fold loc)))
    (singleKey : ∀ base key, key.isWildcard = false → key.isList = false →
      motive key (expand registry key) → within base key (expand registry key)) :
    (∀ e, motive e (expand registry e)) ∧
      ∀ base key, within base key (expandKey registry base key) := by
  have both (e : Expr) :
      motive e (expand registry e) ∧ ∀ base, within base e (expandKey registry base e) := by
    induction e using Expr.induction with
    | atom e isAtom =>
      by_cases single : e.isWildcard = false
      · have whole := atom e isAtom single
        rw [← expand_atom isAtom single] at whole
        have noList := Expr.isList_of_isAtom isAtom
        refine ⟨whole, fun base => ?_⟩
        rw [expandKey_of_single base single noList]
        exact singleKey base e single noList whole
      · cases e with
        | wildcard loc => exact ⟨wildcard loc, fun base => wildcardKey base loc⟩
        | _ => exact absurd rfl single
    | subscript base key loc ih =>
      have whole := subscript base key loc (ih.2 base)
      exact ⟨whole, fun outer => singleKey outer _ rfl rfl whole⟩
    | branch isBranch values ih =>
      have inside value member := (ih value member).1
      have whole := branch isBranch values inside
      rw [← expand_branch isBranch] at whole
      refine ⟨whole, fun base => ?_⟩
      cases isBranch with
      | list fold loc => exact listKey base values fold loc inside
      | compound operator loc => exact singleKey base _ rfl rfl whole
  exact ⟨fun e => (both e).1, fun base key => (both key).2 base⟩

end Wildcard

namespace Lists

variable {registry : Registry}

theorem resolveAll_eq_reviseList (values : List Expr) :
    resolveAll registry values = reviseList (resolve registry) values := by
  induction values with
  | nil => rfl
  | cons e rest ih => rw [resolveAll, reviseList, ih]

theorem resolve_atom {e : Expr} (isAtom : e.isAtom = true) :
    resolve registry e = pure (.kept e) := by
  cases e with
  | subscript | list | compound => cases isAtom
  | _ => rfl

end Lists

end AutomationScript
