import AutomationScript.Lowering.Placeholders
import AutomationScript.Proofs.Lowering.Revision

/-!
# Forms after placeholders are filled in

Filling in the placeholders of a program leaves none, in its targets as in its values and
conditions.
-/

namespace AutomationScript

def Forms.withoutPlaceholders (f : Forms) : Forms :=
  { f with placeholders := False }

/-- A rule that never answers with anything but the node itself revises nothing. -/
structure Keeping (rule : Expr → Option (Lowering (Revised Expr))) : Prop where
  answered : ∀ {e : Expr} {revised : Revised Expr}, rule e = some (.ok revised) → revised = .kept e

namespace Keeping

variable {rule : Expr → Option (Lowering (Revised Expr))}

theorem kept (keeping : Keeping rule) (e : Expr) {revised : Revised Expr}
    (ran : e.revise rule = .ok revised) : revised = .kept e := by
  refine Expr.revise_induction
    (motive := fun e step => ∀ {revised}, step = .ok revised → revised = .kept e)
    (fun e answer answered revised given => keeping.answered (answered.trans (congrArg some given)))
    (fun e _ _ revised same => (Except.ok.inj same).symm) ?_ ?_ e ran
  · intro base key loc _ ih revised ran
    obtain ⟨newKey, keyRan, rfl⟩ := bind_pure_eq_ok_iff.mp ran
    rw [ih keyRan]
    rfl
  · intro build _ values _ ih revised ran
    obtain ⟨newValues, valuesRan, rfl⟩ := bind_pure_eq_ok_iff.mp ran
    rw [kept_of_reviseList ih valuesRan]
    rfl

end Keeping

namespace Placeholder

variable {f : Forms}

variable {e : Expr}

theorem becomes_fill {key : Option Ident} (named : ∀ name ∈ key, f.isName name.name)
    (written : e.Written f) : Becomes (Expr.Written f.withoutPlaceholders) (fill key e) := by
  have sameLists : f.lists → f.withoutPlaceholders.lists := id
  refine (Revises.ofWritten sameLists ?_ ?_ ?_).becomes e written
  · intro e answer written answered
    cases e with
    | placeholder loc =>
      cases key with
      | none =>
        cases answered
        exact Yields.of_refuse _ _
      | some name =>
        cases answered
        exact Expr.Written.ident name loc (named name rfl)
    | _ => cases answered
  · intro e written isAtom unanswered
    cases written with
    | placeholder loc allowed => cases key <;> cases unanswered
    | string value loc => exact .string value loc
    | number value loc => exact .number value loc
    | boolean value loc => exact .boolean value loc
    | ident word loc named => exact .ident word loc named
    | wildcard loc allowed => exact .wildcard loc allowed
    | _ => cases isAtom
  · intro base key loc written _ keyBecomes
    cases written with
    | raw _ text textLoc _ isEval => exact Expr.Written.raw base text textLoc loc isEval
    | subscript _ _ _ keyWritten =>
      exact (keyBecomes keyWritten).mono fun _ revised => .subscript base _ loc revised

theorem yields_reject (written : e.Written f) :
    Yields (fun _ => e.Written f.withoutPlaceholders) (reject e) := by
  have noKey : ∀ name ∈ (none : Option Ident), f.isName name.name := nofun
  have filled := becomes_fill noKey written
  have unchanged : ∀ revised, fill none e = .ok revised → revised = .kept e := by
    intro revised ran
    refine Keeping.kept ⟨fun {node answer} answered => ?_⟩ e ran
    cases node <;> cases answered
  refine (filled.and_ofResult unchanged).bind fun revised holds => ?_
  obtain ⟨revisedWritten, rfl⟩ := holds
  exact revisedWritten

theorem named_keyOf? (isTarget : e.Target f) : ∀ name ∈ keyOf? e, f.isName name.name := by
  intro name isKey
  cases isTarget with
  | ident word loc named => cases isKey
  | subscript base key loc keyWritten =>
    cases keyWritten with
    | ident word wordLoc named =>
      cases isKey
      exact named
    | _ => cases isKey

theorem target_of_written {g : Forms} (isTarget : e.Target f) (written : e.Written g)
    (names : ∀ name, f.isName name → g.isName name) : e.Target g := by
  cases isTarget with
  | ident word loc named => exact .ident word loc (names _ named)
  | subscript base key loc keyWritten =>
    cases written with
    | subscript _ _ _ keyRewritten => exact .subscript base key loc keyRewritten
    | raw _ text textLoc _ isEval =>
      cases keyWritten with
      | ident _ _ named => exact .subscript base _ loc (.ident text textLoc (names _ named))

theorem yields_lowerStmt {g : Forms} (names : ∀ name, f.isName name → g.isName name) {s : Stmt}
    (fits : s.Fits (Expr.Target f) (Expr.Written g)) :
    Yields (s.BecomesPart
        (Stmt.Fits (Expr.Target f.withoutPlaceholders) (Expr.Written g.withoutPlaceholders)))
      (lowerStmt s) := by
  cases s with
  | assign target value condition tag =>
    obtain ⟨isTarget, valueWritten, conditionWritten⟩ := fits
    have named : ∀ name ∈ keyOf? target, g.isName name.name :=
      fun name isKey => names _ (named_keyOf? isTarget name isKey)
    refine (yields_reject isTarget.written).bind fun _ targetWritten => ?_
    refine (becomes_fill named valueWritten).bind fun newValue newWritten => ?_
    refine (Becomes.reviseOption (fun e => becomes_fill named) conditionWritten).bind
      fun newCondition newConditionWritten => ?_
    have newTarget := target_of_written isTarget targetWritten fun _ => id
    exact Stmt.BecomesPart.singleton ⟨newTarget, newWritten, newConditionWritten⟩ fun _ => rfl
  | openBlock condition tag =>
    refine (yields_reject fits).bind fun _ conditionWritten => ?_
    exact Stmt.BecomesPart.singleton conditionWritten fun _ => rfl
  | closeBlock tag => exact Stmt.BecomesPart.singleton fits fun depth => by cases depth <;> rfl
  | trigger condition actions tag => exact Stmt.BecomesPart.singleton fits fun _ => rfl
  | defineExpr name body tag => exact fits.elim
  | defineBlock name body tag => exact fits.elim
  | use name tag => exact fits.elim

theorem yields_lower {g : Forms} (names : ∀ name, f.isName name → g.isName name)
    {program : List Stmt}
    (composed : Composed (Stmt.Fits (Expr.Target f) (Expr.Written g)) program) :
    Yields (Composed
        (Stmt.Fits (Expr.Target f.withoutPlaceholders) (Expr.Written g.withoutPlaceholders)))
      (lower program) :=
  composed.lowerEach fun _ => yields_lowerStmt names

end Placeholder

end AutomationScript
