import AutomationScript.Pipeline.Stage
import AutomationScript.Proofs.Grammar.Chars
import AutomationScript.Proofs.Lowering.Families
import AutomationScript.Registry.Builtin

/-!
# References after aliases and families are resolved

Aliases leave settings, families and text in braces alone, and families leave everything else alone.
Together they let no reference pass that the registry does not declare (`references_declared`).
-/

namespace AutomationScript

/-- The registry declares what stands under `key` in `base`: text in braces may be anything, a
setting has a type, a named value is known to the runtime by that key, and a key of a category is
among the values that the category allows. -/
def Registry.Declares (registry : Registry) (base key : String) : Prop :=
  if base = evalName then
    True
  else if isSettingBase base then
    (registry.settingType? key).isSome = true
  else if base = otherName then
    ∃ name other, registry.other? name = some other ∧ other.target = key
  else
    ∃ category, registry.category? base = some category ∧
      ∀ allowed ∈ category.allowed, key ∈ allowed

namespace Expr

/-- The node stands somewhere in the expression, be it inside a key. -/
inductive Occurs (node : Expr) : Expr → Prop where
  | here :
      Occurs node node
  | key (base : Ident) (key : Expr) (loc : Option Location) :
      Occurs node key →
      Occurs node (.subscript base key loc)
  | element (values : List Expr) (fold : Option Fold) (loc : Option Location) (value : Expr) :
      value ∈ values →
      Occurs node value →
      Occurs node (.list values fold loc)
  | operand (operator : Operator) (args : List Expr) (loc : Option Location) (arg : Expr) :
      arg ∈ args →
      Occurs node arg →
      Occurs node (.compound operator args loc)

/-- Every reference in the expression has a name as its key and is declared, and no name stands
outside a key. -/
structure Declared (registry : Registry) (e : Expr) : Prop where
  references : ∀ base key loc, Occurs (.subscript base key loc) e →
    ∃ word keyLoc, key = .ident word keyLoc ∧ registry.Declares base.name word.name
  noBareName : e.hasNode false Expr.isIdent = false

/-- Outside keys there are no names, and every subscript is one of the given references. -/
inductive Refers (reference : Ident → Expr → Prop) : Expr → Prop where
  | atom (e : Expr) :
      e.isAtom = true →
      e.isIdent = false →
      Refers reference e
  | subscript (base : Ident) (key : Expr) (loc : Option Location) :
      reference base key →
      Refers reference (.subscript base key loc)
  | list (values : List Expr) (fold : Option Fold) (loc : Option Location) :
      (∀ value ∈ values, Refers reference value) →
      Refers reference (.list values fold loc)
  | compound (operator : Operator) (args : List Expr) (loc : Option Location) :
      (∀ arg ∈ args, Refers reference arg) →
      Refers reference (.compound operator args loc)

theorem hasNode_atom {e : Expr} (isAtom : e.isAtom = true) (keys : Bool) (test : Expr → Bool) :
    e.hasNode keys test = test e := by
  cases e with
  | subscript | list | compound => cases isAtom
  | _ => rfl

variable {reference : Ident → Expr → Prop}

theorem Refers.noBareName {e : Expr} (refers : e.Refers reference) :
    e.hasNode false Expr.isIdent = false := by
  induction refers with
  | atom e isAtom noName =>
    rw [hasNode_atom isAtom]
    exact noName
  | subscript base key loc isReference =>
    rfl
  | list values fold loc each ih =>
    have none : values.any (hasNode false Expr.isIdent) = false := by
      simpa using ih
    simp [hasNode, anyHasNode_eq_any, Expr.isIdent, none]
  | compound operator args loc each ih =>
    have none : args.any (hasNode false Expr.isIdent) = false := by
      simpa using ih
    simp [hasNode, anyHasNode_eq_any, Expr.isIdent, none]

/-- Keys that are names have nothing below them, so the references outside keys are all there
are. -/
theorem Refers.reference_of_occurs
    (keysNamed : ∀ base key, reference base key → ∃ word loc, key = .ident word loc) {e : Expr}
    (refers : e.Refers reference) {base : Ident} {key : Expr} {loc : Option Location}
    (occurs : Occurs (.subscript base key loc) e) : reference base key := by
  induction refers with
  | atom e isAtom noName =>
    cases occurs <;> cases isAtom
  | subscript outerBase outerKey outerLoc isReference =>
    cases occurs with
    | here => exact isReference
    | key _ _ _ inKey =>
      obtain ⟨word, keyLoc, rfl⟩ := keysNamed outerBase outerKey isReference
      cases inKey
  | list values fold listLoc each ih =>
    cases occurs with
    | element _ _ _ value member inValue => exact ih value member inValue
  | compound operator args opLoc each ih =>
    cases occurs with
    | operand _ _ _ arg member inArg => exact ih arg member inArg

end Expr

/-! ## Aliases -/

namespace Alias

variable {registry : Registry}

/-- A base that aliases have nothing to do with. -/
def Skips (registry : Registry) (base : String) : Prop :=
  base = evalName ∨ isSettingBase base = true ∨ (registry.family? base).isSome = true

/-- What aliases leave: a base that they skip, or a key that is declared. -/
def Passes (registry : Registry) (base : Ident) (key : Expr) : Prop :=
  Skips registry base.name ∨
    ∃ word loc, key = .ident word loc ∧ registry.Declares base.name word.name

theorem declares_of_canonicalKey? {base key canonical : String} {category : Category}
    (notSkipped : ¬ Skips registry base) (categoryFound : registry.category? base = some category)
    (found : canonicalKey? registry base category key = some canonical) :
    registry.Declares base canonical := by
  have notEval : base ≠ evalName := fun isEval => notSkipped (.inl isEval)
  have notSetting : ¬ isSettingBase base = true := fun isBase => notSkipped (.inr (.inl isBase))
  rw [Registry.Declares, if_neg notEval, if_neg notSetting]
  by_cases isOther : base = otherName
  · rw [if_pos isOther]
    rw [canonicalKey?, if_pos isOther] at found
    cases entry : registry.other? key with
    | some other =>
      rw [entry] at found
      exact ⟨key, other, entry, Option.some.inj found⟩
    | none =>
      rw [entry] at found
      obtain ⟨other, targeted, rfl⟩ := Option.map_eq_some_iff.mp found
      obtain ⟨⟨name, entry⟩, isTarget⟩ := Registry.exists_other?_of_otherTarget? targeted
      exact ⟨name, other, entry, isTarget⟩
  · rw [if_neg isOther]
    refine ⟨category, categoryFound, fun allowed isAllowed => ?_⟩
    rw [Option.mem_def] at isAllowed
    simp only [canonicalKey?, if_neg isOther, isAllowed] at found
    obtain ⟨inside, same⟩ := Option.ite_none_right_eq_some.mp found
    rw [← Option.some.inj same]
    exact List.contains_iff_mem.mp inside

theorem becomes_resolveSubscript_any (registry : Registry) (base : Ident) (key : Expr)
    (loc : Option Location) :
    Becomes (Expr.Refers (Passes registry)) (resolveSubscript registry base key loc) := by
  unfold resolveSubscript
  dsimp only
  split
  · next skipped => exact Expr.Refers.subscript base key loc (.inl skipped)
  · next notSkipped =>
      cases categoryFound : registry.category? base.name with
      | none => exact Yields.of_refuse _ _
      | some category =>
        cases key with
        | ident word keyLoc =>
          dsimp only
          cases found : canonicalKey? registry base.name category word.name with
          | none => exact Yields.of_refuse _ _
          | some canonical =>
            have declared := declares_of_canonicalKey? notSkipped categoryFound found
            dsimp only
            split
            · next same =>
                subst same
                exact Expr.Refers.subscript base _ loc (.inr ⟨word, keyLoc, rfl, declared⟩)
            · exact Expr.Refers.subscript base _ loc (.inr ⟨_, keyLoc, rfl, declared⟩)
        | _ => exact Yields.of_refuse _ _

/-- A bare name becomes the key that the runtime knows a named value by.  If a family is called
like the category of named values, the reference is left for the next step. -/
theorem passes_other {name : String} {other : NamedValue}
    (found : registry.other? name = some other) (word : Ident)
    (sameTarget : word.name = other.target) (baseLoc loc : Option Location) :
    Passes registry ⟨otherName, baseLoc⟩ (.ident word loc) := by
  refine .inr ⟨word, loc, rfl, ?_⟩
  have notEval : otherName ≠ evalName := by decide
  have notSetting : ¬ isSettingBase otherName = true := by decide
  rw [Registry.Declares, if_neg notEval, if_neg notSetting, if_pos rfl]
  exact ⟨name, other, found, sameTarget.symm⟩

theorem becomes_resolve_any (registry : Registry) (e : Expr) :
    Becomes (Expr.Refers (Passes registry)) (resolve registry e) := by
  refine @Revises.becomes _ (fun _ => True) _ ⟨?_, ?_, ?_, ?_⟩ e True.intro
  · intro e answer _ answered
    cases e with
    | ident word loc =>
      dsimp only at answered
      cases found : registry.other? word.name with
      | none =>
        rw [found] at answered
        cases answered
        exact Yields.of_refuse _ _
      | some other =>
        rw [found] at answered
        cases answered
        exact Expr.Refers.subscript _ _ loc (passes_other found _ rfl _ _)
    | subscript base key loc =>
      cases answered
      exact becomes_resolveSubscript_any registry base key loc
    | _ => cases answered
  · intro e _ isAtom unanswered
    refine .atom e isAtom ?_
    cases e with
    | ident word loc =>
      dsimp only at unanswered
      split at unanswered <;> cases unanswered
    | _ => rfl
  · intro base key loc _ unanswered
    cases unanswered
  · intro build values isBranch _ _
    refine ⟨fun _ _ => True.intro, fun revised _ each => ?_⟩
    cases isBranch with
    | list fold loc => exact .list revised fold loc each
    | compound operator loc => exact .compound operator revised loc each

end Alias

/-! ## Families -/

namespace Families

variable {registry : Registry}

/-- A reference whose key is a name that the registry declares. -/
def IsDeclared (registry : Registry) (base : Ident) (key : Expr) : Prop :=
  ∃ word loc, key = .ident word loc ∧ registry.Declares base.name word.name

theorem declares_setting {base key : String} (ofSettings : isSettingBase base = true)
    (isSetting : (registry.settingType? key).isSome = true) : registry.Declares base key := by
  have notEval : base ≠ evalName := by
    rintro rfl
    revert ofSettings
    decide
  rw [Registry.Declares, if_neg notEval, if_pos ofSettings]
  exact isSetting

theorem becomes_resolveTarget_any (registry : Registry) (e : Expr) :
    Becomes (Expr.IsSetting registry) (resolveTarget registry e) := by
  cases e with
  | ident word loc =>
    rw [resolveTarget]
    split
    · next isSetting => exact ⟨word, loc, rfl, isSetting⟩
    · exact Yields.of_refuse _ _
  | subscript base key loc =>
    exact (yields_memberId registry base key).bind fun id isSetting => ⟨id, loc, rfl, isSetting⟩
  | _ => exact Yields.of_refuse _ _

theorem becomes_resolveSubscript_declared {base : Ident} {key : Expr} (loc : Option Location)
    (passes : Alias.Passes registry base key) :
    Becomes (Expr.Refers (IsDeclared registry)) (resolveSubscript registry base key loc) := by
  unfold resolveSubscript
  dsimp only
  by_cases isFamily : (registry.family? base.name).isSome = true
  · rw [if_pos isFamily]
    refine (yields_memberId registry base key).bind fun id isSetting => ?_
    exact Expr.Refers.subscript _ _ loc ⟨id, key.loc, rfl, declares_setting rfl isSetting⟩
  rw [if_neg isFamily]
  by_cases ofSettings : isSettingBase base.name = true
  · rw [if_pos ofSettings]
    cases key with
    | ident word keyLoc =>
      dsimp only
      split
      · next isSetting =>
          exact Expr.Refers.subscript base _ loc
            ⟨word, keyLoc, rfl, declares_setting ofSettings isSetting⟩
      · exact Yields.of_refuse _ _
    | subscript innerBase innerKey keyLoc =>
      refine (yields_memberId registry innerBase innerKey).bind fun id isSetting => ?_
      exact Expr.Refers.subscript base _ loc
        ⟨id, keyLoc, rfl, declares_setting ofSettings isSetting⟩
    | _ => exact Yields.of_refuse _ _
  rw [if_neg ofSettings]
  cases key with
  | ident word keyLoc =>
    refine Expr.Refers.subscript base _ loc ?_
    -- Of the bases that aliases skip, only that of text in braces gets here.
    rcases passes with (isEval | isBase | isFamily') | declared
    · refine ⟨word, keyLoc, rfl, ?_⟩
      rw [Registry.Declares, if_pos isEval]
      exact True.intro
    · exact absurd isBase ofSettings
    · exact absurd isFamily' isFamily
    · exact declared
  | _ => exact Yields.of_refuse _ _

theorem becomes_resolve_declared {e : Expr} (refers : e.Refers (Alias.Passes registry)) :
    Becomes (Expr.Refers (IsDeclared registry)) (resolve registry e) := by
  refine Revises.becomes ⟨?_, ?_, ?_, ?_⟩ e refers
  · intro e answer refers answered
    cases e with
    | subscript base key loc =>
      cases answered
      cases refers with
      | atom _ isAtom _ => cases isAtom
      | subscript _ _ _ passes => exact becomes_resolveSubscript_declared loc passes
    | _ => cases answered
  · intro e refers isAtom _
    cases refers with
    | atom _ _ noName => exact .atom e isAtom noName
    | _ => cases isAtom
  · intro base key loc _ unanswered
    cases unanswered
  · intro build values isBranch refers _
    cases isBranch with
    | list fold loc =>
      cases refers with
      | atom _ isAtom _ => cases isAtom
      | list _ _ _ each => exact ⟨each, fun revised _ after => .list revised fold loc after⟩
    | compound operator loc =>
      cases refers with
      | atom _ isAtom _ => cases isAtom
      | compound _ _ _ each =>
        exact ⟨each, fun revised _ after => .compound operator revised loc after⟩

theorem declared_of_refers {e : Expr} (refers : e.Refers (IsDeclared registry)) :
    e.Declared registry where
  references _ _ _ occurs :=
    refers.reference_of_occurs (fun _ _ ⟨word, loc, same, _⟩ => ⟨word, loc, same⟩) occurs
  noBareName := refers.noBareName

end Families

/-- Whatever statements aliases and then families are resolved in, every reference in the values
and conditions of the result is declared, however deep it stands, no bare name is left outside
keys, and every target is a setting. -/
theorem references_declared
    {registry : Registry} {program aliased resolved : List Stmt}
    (aliasesRan : Stage.aliases.run registry program = .ok aliased)
    (familiesRan : Stage.families.run registry aliased = .ok resolved) :
    ∀ s ∈ resolved, s.PartsSatisfy (Expr.IsSetting registry) (Expr.Declared registry) := by
  have anything : ∀ s ∈ program, s.PartsSatisfy (fun _ => True) (fun _ => True) := by
    intro s _
    cases s with
    | assign target value condition tag =>
      exact ⟨True.intro, True.intro, fun _ _ => True.intro⟩
    | _ => exact True.intro
  have targetsLeft : ∀ e : Expr, True → Becomes (fun _ => True) (unrevised e) :=
    fun _ _ => True.intro
  have afterAliases :=
    Yields.reviseParts targetsLeft (fun e _ => Alias.becomes_resolve_any registry e) anything
  have afterFamilies :=
    Yields.reviseParts (fun e _ => Families.becomes_resolveTarget_any registry e)
      (fun e refers => (Families.becomes_resolve_declared refers).mono
        fun _ declared => Families.declared_of_refers declared)
      (afterAliases.result aliasesRan)
  exact afterFamilies.result familiesRan

/-- A block and an assignment with references of every kind, one of them inside a key. -/
theorem references_declared_everyKind :
    ∃ program aliased resolved,
      program = (parse ("if Sell.Iron and Citizens > \x7bx\x7d then\n" ++
        "Sell.Coal = SettingDefault[Sell.Iron] if not (Starving or ResourceDemanded.Coal)\n" ++
        "end")).1 ∧
      Stage.aliases.run Registry.builtin program = .ok aliased ∧
      Stage.families.run Registry.builtin aliased = .ok resolved ∧ resolved.length = 3 ∧
      ∀ s ∈ resolved,
        s.PartsSatisfy (Expr.IsSetting Registry.builtin) (Expr.Declared Registry.builtin) := by
  generalize read : (parse ("if Sell.Iron and Citizens > \x7bx\x7d then\n" ++
    "Sell.Coal = SettingDefault[Sell.Iron] if not (Starving or ResourceDemanded.Coal)\n" ++
    "end")).1 = program
  have checked : ((Stage.aliases.run Registry.builtin program >>= fun aliased =>
      Stage.families.run Registry.builtin aliased).toOption.map List.length) = some 3 := by
    rw [← read]
    simp only [parse_eq_parseChars, String.toList_append]
    decide +kernel
  obtain ⟨resolved, ran, length⟩ := exists_ok_of_toOption_map checked
  obtain ⟨aliased, aliasesRan, familiesRan⟩ := bind_eq_ok_iff.mp ran
  exact ⟨program, aliased, resolved, rfl, aliasesRan, familiesRan, length,
    references_declared aliasesRan familiesRan⟩

end AutomationScript
