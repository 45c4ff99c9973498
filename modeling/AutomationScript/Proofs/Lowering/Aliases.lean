import AutomationScript.Lowering.Aliases
import AutomationScript.Proofs.Lowering.Revision
import AutomationScript.Proofs.Table
import AutomationScript.Proofs.Token.Identifiers

/-!
# Forms after aliases are resolved

Resolving the aliases of a program leaves no bare names in its values and conditions, and the keys
of categories in the form that the runtime knows.
-/

namespace AutomationScript

namespace Registry

/-- The names that keys are written with: identifiers, and the suffixes that wildcards stand
for. -/
def IsName (registry : Registry) (name : String) : Prop :=
  isIdentifier name = true ∨
    ∃ base family, registry.family? base = some family ∧ name ∈ family.suffixes

def surface (registry : Registry) : Forms :=
  ⟨registry.IsName, True, True, True⟩

/-- The forms that are left once wildcards, lists and placeholders are gone. -/
def plain (registry : Registry) : Forms :=
  ⟨registry.IsName, False, False, False⟩

/-- The runtime knows a value of the category `base` by this name. -/
def Knows (registry : Registry) (base name : String) : Prop :=
  (base = otherName ∧ ∃ short other, registry.other? short = some other ∧ other.target = name) ∨
    base ≠ otherName ∧ ∃ category key, registry.category? base = some category ∧
      registry.IsName key ∧ Alias.canonicalKey? registry base category key = some name

theorem exists_other?_of_otherTarget? {registry : Registry} {key : String} {other : NamedValue}
    (found : registry.otherTarget? key = some other) :
    (∃ short, registry.other? short = some other) ∧ other.target = key := by
  rw [otherTarget?] at found
  have isTarget := List.find?_some found
  exact ⟨Table.exists_get?_of_mem_values (List.mem_of_find?_eq_some found), eq_of_beq isTarget⟩

end Registry

namespace Alias

variable {registry : Registry}

/-- A key in a base that aliases have nothing to do with, or one that the runtime knows. -/
def Resolved (registry : Registry) (base : Ident) (key : Expr) : Prop :=
  (base.name = evalName ∨ isSettingBase base.name = true ∨
      (registry.family? base.name).isSome = true) ∨
    ∃ word loc, key = .ident word loc ∧ registry.Knows base.name word.name

theorem knows_of_canonicalKey? {base key name : String} {category : Category}
    (categoryFound : registry.category? base = some category) (named : registry.IsName key)
    (found : canonicalKey? registry base category key = some name) : registry.Knows base name := by
  by_cases isOther : base = otherName
  · rw [canonicalKey?, if_pos isOther] at found
    cases entry : registry.other? key with
    | some other =>
      rw [entry] at found
      cases found
      exact .inl ⟨isOther, key, other, entry, rfl⟩
    | none =>
      rw [entry] at found
      obtain ⟨other, targeted, rfl⟩ := Option.map_eq_some_iff.mp found
      obtain ⟨⟨short, entry⟩, isTarget⟩ := Registry.exists_other?_of_otherTarget? targeted
      exact .inl ⟨isOther, short, other, entry, isTarget⟩
  · exact .inr ⟨isOther, category, key, categoryFound, named, found⟩

theorem becomes_resolveSubscript {base : Ident} {key : Expr} {loc : Option Location}
    (written : Expr.Written registry.plain (.subscript base key loc)) :
    Becomes (Expr.Formed (Resolved registry)) (resolveSubscript registry base key loc) := by
  unfold resolveSubscript
  dsimp only
  split
  · next leftAlone => exact Expr.Formed.subscript base key loc (.inl leftAlone)
  · next isCategory =>
      have keyWritten : key.Written registry.plain := by
        cases written with
        | subscript _ _ _ keyWritten => exact keyWritten
        | raw _ _ _ _ isEval => exact absurd (.inl isEval) isCategory
      cases categoryFound : registry.category? base.name with
      | none => exact Yields.of_refuse _ _
      | some category =>
        cases keyWritten with
        | ident word keyLoc named =>
          dsimp only
          cases found : canonicalKey? registry base.name category word.name with
          | none => exact Yields.of_refuse _ _
          | some canonical =>
            have knows := knows_of_canonicalKey? categoryFound named found
            dsimp only
            split
            · next same =>
                subst same
                exact Expr.Formed.subscript base _ loc (.inr ⟨word, keyLoc, rfl, knows⟩)
            · exact Expr.Formed.subscript base _ loc (.inr ⟨_, keyLoc, rfl, knows⟩)
        | _ => exact Yields.of_refuse _ _

theorem becomes_resolve {e : Expr} (written : e.Written registry.plain) :
    Becomes (Expr.Formed (Resolved registry)) (resolve registry e) := by
  refine Revises.becomes ⟨?_, ?_, ?_, ?_⟩ e written
  · intro e answer written answered
    cases e with
    | ident word loc =>
      dsimp only at answered
      cases found : registry.other? word.name with
      | none =>
        rw [found] at answered
        cases answered
        exact Yields.of_refuse _ _
      | some other =>
        rw [found] at answered
        cases answered
        refine Expr.Formed.subscript _ _ loc (.inr ⟨_, loc, rfl, .inl ⟨rfl, ?_⟩⟩)
        exact ⟨word.name, other, found, rfl⟩
    | subscript base key loc =>
      cases answered
      exact becomes_resolveSubscript written
    | _ => cases answered
  · intro e written isAtom unanswered
    cases written with
    | string value loc => exact .string value loc
    | number value loc => exact .number value loc
    | boolean value loc => exact .boolean value loc
    | ident word loc named =>
      dsimp only at unanswered
      split at unanswered <;> cases unanswered
    | wildcard loc impossible => exact impossible.elim
    | placeholder loc impossible => exact impossible.elim
    | _ => cases isAtom
  · intro base key loc _ unanswered
    cases unanswered
  · intro build values isBranch written _
    cases isBranch with
    | list fold loc =>
      cases written with
      | list _ _ _ impossible _ => exact impossible.elim
    | compound operator loc =>
      cases written with
      | compound _ _ _ arity each =>
        refine ⟨each, fun revised sameLength => ?_⟩
        exact .compound operator revised loc (sameLength.trans arity)

theorem yields_lower {target : Expr → Prop} {program : List Stmt}
    (composed : Composed (Stmt.Fits target (Expr.Written registry.plain)) program) :
    Yields (Composed (Stmt.Fits target (Expr.Formed (Resolved registry))))
      (lower registry program) :=
  composed.reviseEach (fun _ => becomes_unrevised) fun _ => becomes_resolve

end Alias

end AutomationScript
