import AutomationScript.Lowering.Families
import AutomationScript.Proofs.Lowering.Aliases

/-!
# Forms after families are resolved

Resolving the families of a program leaves targets that are settings, and references whose keys
are names.
-/

namespace AutomationScript

theorem afterStem?_append (stem rest : String) :
    afterStem? stem (stem ++ rest) = some rest := by
  simp [afterStem?]

namespace Registry

theorem isSome_settingType?_member {registry : Registry} {base suffix : String} {family : Family}
    (found : registry.family? base = some family) (isSuffix : suffix ∈ family.suffixes) :
    (registry.settingType? (family.stem ++ suffix)).isSome = true := by
  rw [settingType?]
  cases registry.settings.get? (family.stem ++ suffix) with
  | some type => rfl
  | none =>
    dsimp only
    rw [List.findSome?_isSome_iff]
    refine ⟨family, Table.mem_values_of_get? found, ?_⟩
    rw [Family.typeOf?, afterStem?_append]
    simp [isSuffix]

end Registry

/-- A setting that the registry knows. -/
def Expr.IsSetting (registry : Registry) (e : Expr) : Prop :=
  ∃ word loc, e = .ident word loc ∧ (registry.settingType? word.name).isSome = true

namespace Families

variable {registry : Registry}

/-- A key of a base that is left once families are resolved.  Such a base is no family, unless
members of families are written with it. -/
structure Reference (registry : Registry) (base : Ident) (key : Expr) : Prop where
  noFamily : registry.family? base.name = none ∨ base.name = settingCurrent
  named : ∃ word loc, key = .ident word loc ∧
    (base.name = evalName ∨
      isSettingBase base.name = true ∧ (registry.settingType? word.name).isSome = true ∨
      registry.Knows base.name word.name)

theorem yields_memberId (registry : Registry) (base : Ident) (key : Expr) :
    Yields (fun id => (registry.settingType? id.name).isSome = true)
      (memberId registry base key) := by
  unfold memberId
  cases found : registry.family? base.name with
  | none => exact Yields.of_refuse _ _
  | some family =>
    dsimp only
    cases key.name? with
    | none => exact Yields.of_refuse _ _
    | some suffix =>
      dsimp only
      split
      · next isSuffix =>
          exact Registry.isSome_settingType?_member found (List.contains_iff_mem.mp isSuffix)
      · exact Yields.of_refuse _ _

theorem becomes_resolveTarget {f : Forms} {e : Expr} (isTarget : e.Target f) :
    Becomes (Expr.IsSetting registry) (resolveTarget registry e) := by
  cases isTarget with
  | ident word loc named =>
    rw [resolveTarget]
    split
    · next isSetting => exact ⟨word, loc, rfl, isSetting⟩
    · exact Yields.of_refuse _ _
  | subscript base key loc keyWritten =>
    exact (yields_memberId registry base key).bind fun id isSetting => ⟨id, loc, rfl, isSetting⟩

theorem becomes_resolveSubscript {base : Ident} {key : Expr} (loc : Option Location)
    (resolved : Alias.Resolved registry base key) :
    Becomes (Expr.Formed (Reference registry)) (resolveSubscript registry base key loc) := by
  unfold resolveSubscript
  dsimp only
  by_cases isFamily : (registry.family? base.name).isSome = true
  · rw [if_pos isFamily]
    refine (yields_memberId registry base key).bind fun id isSetting => ?_
    exact Expr.Formed.subscript _ _ loc ⟨.inr rfl, id, key.loc, rfl, .inr (.inl ⟨rfl, isSetting⟩)⟩
  · rw [if_neg isFamily]
    have noFamily := Option.not_isSome_iff_eq_none.mp isFamily
    by_cases ofSettings : isSettingBase base.name = true
    · rw [if_pos ofSettings]
      cases key with
      | ident word keyLoc =>
        dsimp only
        split
        · next isSetting =>
            exact Expr.Formed.subscript base _ loc
              ⟨.inl noFamily, word, keyLoc, rfl, .inr (.inl ⟨ofSettings, isSetting⟩)⟩
        · exact Yields.of_refuse _ _
      | subscript innerBase innerKey keyLoc =>
        refine (yields_memberId registry innerBase innerKey).bind fun id isSetting => ?_
        exact Expr.Formed.subscript base _ loc
          ⟨.inl noFamily, id, keyLoc, rfl, .inr (.inl ⟨ofSettings, isSetting⟩)⟩
      | _ => exact Yields.of_refuse _ _
    · rw [if_neg ofSettings]
      cases key with
      | ident word keyLoc =>
        refine Expr.Formed.subscript base _ loc ⟨.inl noFamily, word, keyLoc, rfl, ?_⟩
        rcases resolved with (isEval | isSettings | isFamily') | ⟨_, _, same, knows⟩
        · exact .inl isEval
        · exact absurd isSettings ofSettings
        · exact absurd isFamily' isFamily
        · cases same
          exact .inr (.inr knows)
      | _ => exact Yields.of_refuse _ _

theorem becomes_resolve {e : Expr} (formed : e.Formed (Alias.Resolved registry)) :
    Becomes (Expr.Formed (Reference registry)) (resolve registry e) := by
  refine Revises.becomes ⟨?_, ?_, ?_, ?_⟩ e formed
  · intro e answer formed answered
    cases formed with
    | subscript base key loc resolved =>
      cases answered
      exact becomes_resolveSubscript loc resolved
    | _ => cases answered
  · intro e formed isAtom _
    cases formed with
    | string value loc => exact .string value loc
    | number value loc => exact .number value loc
    | boolean value loc => exact .boolean value loc
    | _ => cases isAtom
  · intro base key loc _ unanswered
    cases unanswered
  · intro build values isBranch formed _
    cases isBranch with
    | list fold loc => cases formed
    | compound operator loc =>
      cases formed with
      | compound _ _ _ arity each =>
        refine ⟨each, fun revised sameLength => ?_⟩
        exact .compound operator revised loc (sameLength.trans arity)

theorem yields_lower {f : Forms} {program : List Stmt} (composed :
      Composed (Stmt.Fits (Expr.Target f) (Expr.Formed (Alias.Resolved registry))) program) :
    Yields (Composed (Stmt.Fits (Expr.IsSetting registry) (Expr.Formed (Reference registry))))
      (lower registry program) :=
  composed.reviseEach (fun _ => becomes_resolveTarget) fun _ => becomes_resolve

end Families

end AutomationScript
