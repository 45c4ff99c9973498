import AutomationScript.Proofs.Lowering.Folds
import AutomationScript.Proofs.Lowering.References
import AutomationScript.Proofs.Registry.Stable

/-!
# Two views of the type of a reference

Lists are folded by the type of their base, looked up by the names in the script; types are checked
later, by the names that the runtime knows and in other tables.  In a consistent registry the two
lookups agree (`subscriptType_of_baseType`).
-/

namespace AutomationScript

open List

variable {name : String} {family : Family} {type : ValueType} {base : Ident} {key : Expr}

/-- The categories with a meaning of their own. -/
def reservedCategories : List String :=
  [settingCurrent, settingDefault, otherName, evalName]

theorem of_not_reserved (notReserved : name ∉ reservedCategories) :
    name ≠ otherName ∧ name ≠ evalName ∧ ¬ isSettingBase name = true := by
  simp only [reservedCategories, mem_cons, not_mem_nil, or_false, not_or] at notReserved
  obtain ⟨notCurrent, notDefault, notOther, notEval⟩ := notReserved
  refine ⟨notOther, notEval, ?_⟩
  simp [isSettingBase, notCurrent, notDefault]

/-- No name of the registry has one type in a script and another in the runtime. -/
structure Registry.Consistent (registry : Registry) : Prop where
  /-- The categories with a meaning of their own declare no type and are no families. -/
  reserved : ∀ name ∈ reservedCategories,
    (registry.category? name).bind Category.type = none ∧ registry.family? name = none
  /-- No family is called like a category. -/
  apart : ∀ name ∈ registry.families.keys, registry.category? name = none
  /-- Every member of a family is a setting of the type of the family. -/
  members : ∀ family ∈ registry.families.values, ∀ suffix ∈ family.suffixes,
    registry.settingType? (family.stem ++ suffix) = some family.type
  /-- Named values that the runtime knows under the same key have the same type. -/
  targets : ∀ one ∈ registry.others.values, ∀ two ∈ registry.others.values,
    one.target = two.target → one.type = two.type

/-- Members of a family have the type of the family if its stem sets them apart: no setting with an
id of its own starts with the stem, and no family of another type has a stem that starts with it or
that it starts with. -/
theorem Registry.settingType?_member {registry : Registry} {base suffix : String}
    (found : registry.family? base = some family) (isSuffix : suffix ∈ family.suffixes)
    (noSetting : ∀ id ∈ registry.settings.keys, ¬ family.stem.toList <+: id.toList)
    (apart : ∀ other ∈ registry.families.values,
      other.stem.toList <+: family.stem.toList ∨ family.stem.toList <+: other.stem.toList →
        other.type = family.type) :
    registry.settingType? (family.stem ++ suffix) = some family.type := by
  have stemOfId : family.stem.toList <+: (family.stem ++ suffix).toList := by
    rw [String.toList_append]
    exact prefix_append _ _
  have notSetting : registry.settings.get? (family.stem ++ suffix) = none := by
    apply Table.get?_eq_none_iff.mpr
    intro isSetting
    exact noSetting _ isSetting stemOfId
  obtain ⟨type, typed⟩ := Option.isSome_iff_exists.mp (isSome_settingType?_member found isSuffix)
  rw [typed]
  rw [settingType?, notSetting] at typed
  obtain ⟨other, member, otherTyped⟩ := exists_of_findSome?_eq_some typed
  -- the first family that takes the id has a stem that the id starts with as well
  have otherStem : other.stem.toList <+: (family.stem ++ suffix).toList := by
    by_contra noStem
    have noRest : afterStem? other.stem (family.stem ++ suffix) = none := by
      rw [afterStem?, if_neg]
      exact mt isPrefixOf_iff_prefix.mp noStem
    rw [Family.typeOf?, noRest] at otherTyped
    cases otherTyped
  have isType : other.type = type := by
    rw [Family.typeOf?] at otherTyped
    split at otherTyped
    · split at otherTyped
      · exact Option.some.inj otherTyped
      · cases otherTyped
    · cases otherTyped
  have nested := prefix_or_prefix_of_prefix otherStem stemOfId
  rw [← isType, apart other member nested]

theorem Registry.consistent_builtin : Registry.builtin.Consistent where
  reserved := by
    decide +kernel
  apart := by
    decide +kernel
  members := by
    intro family member suffix isSuffix
    have noSetting : ∀ family ∈ Registry.builtin.families.values,
        ∀ id ∈ Registry.builtin.settings.keys, ¬ family.stem.toList <+: id.toList := by
      decide +kernel
    have apart : ∀ family ∈ Registry.builtin.families.values,
        ∀ other ∈ Registry.builtin.families.values,
          other.stem.toList <+: family.stem.toList ∨ family.stem.toList <+: other.stem.toList →
            other.type = family.type := by
      decide +kernel
    obtain ⟨base, found⟩ := Table.exists_get?_of_mem_values member
    exact settingType?_member found isSuffix (noSetting family member) (apart family member)
  targets := by
    decide +kernel

variable {registry : Registry}

namespace Registry.Consistent

theorem noFamily (consistent : registry.Consistent) (isReserved : name ∈ reservedCategories) :
    registry.family? name = none :=
  (consistent.reserved name isReserved).2

theorem noFamily_of_settings (consistent : registry.Consistent)
    (ofSettings : isSettingBase name = true) : registry.family? name = none := by
  apply consistent.noFamily
  have isOne : name = settingCurrent ∨ name = settingDefault := by
    simpa [isSettingBase] using ofSettings
  rcases isOne with rfl | rfl <;> decide

theorem not_reserved (consistent : registry.Consistent) {category : Category}
    (found : registry.category? name = some category) (typed : category.type = some type) :
    name ∉ reservedCategories := by
  intro isReserved
  have untyped := (consistent.reserved name isReserved).1
  rw [found, Option.bind_some, typed] at untyped
  cases untyped

theorem noFamily_of_category (consistent : registry.Consistent) {category : Category}
    (found : registry.category? name = some category) : registry.family? name = none := by
  by_contra isFamily
  have isKey : name ∈ registry.families.keys :=
    Table.isSome_get?_iff.mp (Option.isSome_iff_ne_none.mpr isFamily)
  have noCategory := consistent.apart name isKey
  rw [noCategory] at found
  cases found

theorem type_otherTarget? (consistent : registry.Consistent) {other : NamedValue}
    (found : registry.other? name = some other) :
    ∃ same, registry.otherTarget? other.target = some same ∧ same.type = other.type := by
  have isEntry : other ∈ registry.others.values := Table.mem_values_of_get? found
  have known : (registry.otherTarget? other.target).isSome = true := by
    rw [Registry.otherTarget?, find?_isSome]
    exact ⟨other, isEntry, beq_self_eq_true _⟩
  obtain ⟨same, sameFound⟩ := Option.isSome_iff_exists.mp known
  have sameEntry : same ∈ registry.others.values := mem_of_find?_eq_some sameFound
  have sameTarget : same.target = other.target :=
    (Registry.exists_other?_of_otherTarget? sameFound).2
  exact ⟨same, sameFound, consistent.targets same sameEntry other isEntry sameTarget⟩

end Registry.Consistent

/-! ## What the two steps make of a subscript -/

theorem Alias.resolveSubscript_skipped (skipped : Alias.Skips registry base.name) (key : Expr)
    (loc : Option Location) :
    Alias.resolveSubscript registry base key loc = .ok (.kept (.subscript base key loc)) :=
  if_pos skipped

/-- Any other base that is accepted is a category.  Its key is a name, and stands in the form that
the runtime knows. -/
theorem Alias.exists_canonicalKey? {loc : Option Location} {aliased : Revised Expr}
    (notSkipped : ¬ Alias.Skips registry base.name)
    (ran : Alias.resolveSubscript registry base key loc = .ok aliased) :
    ∃ category word canonical keyLoc newLoc, registry.category? base.name = some category ∧
      key = .ident word keyLoc ∧
      canonicalKey? registry base.name category word.name = some canonical ∧
      aliased.value = .subscript base (.ident ⟨canonical, newLoc⟩ keyLoc) loc := by
  unfold Alias.Skips at notSkipped
  unfold resolveSubscript at ran
  rw [if_neg notSkipped] at ran
  cases categoryFound : registry.category? base.name with
  | none =>
    rw [categoryFound] at ran
    cases ran
  | some category =>
    rw [categoryFound] at ran
    cases key with
    | ident word keyLoc =>
      dsimp only at ran
      cases found : canonicalKey? registry base.name category word.name with
      | none =>
        rw [found] at ran
        cases ran
      | some canonical =>
        rw [found] at ran
        refine ⟨category, word, canonical, keyLoc, word.loc, rfl, rfl, found, ?_⟩
        dsimp only at ran
        by_cases same : canonical = word.name
        · rw [if_pos same] at ran
          cases ran
          rw [same]
          rfl
        · rw [if_neg same] at ran
          cases ran
          rfl
    | _ => cases ran

theorem Families.settingType?_memberId (consistent : registry.Consistent) {id : Ident}
    (familyFound : registry.family? base.name = some family)
    (ran : memberId registry base key = .ok id) :
    registry.settingType? id.name = some family.type := by
  unfold memberId at ran
  rw [familyFound] at ran
  dsimp only at ran
  cases named : key.name? with
  | none =>
    rw [named] at ran
    cases ran
  | some suffix =>
    rw [named] at ran
    dsimp only at ran
    by_cases isSuffix : family.suffixes.contains suffix = true
    · rw [if_pos isSuffix] at ran
      cases ran
      have isFamily := Table.mem_values_of_get? familyFound
      exact consistent.members family isFamily suffix (contains_iff_mem.mp isSuffix)
    · rw [if_neg isSuffix] at ran
      cases ran

theorem Families.resolveSubscript_category (noFamily : registry.family? base.name = none)
    (notSettings : ¬ isSettingBase base.name = true) (word : Ident) (keyLoc loc : Option Location) :
    Families.resolveSubscript registry base (.ident word keyLoc) loc =
      .ok (.kept (.subscript base (.ident word keyLoc) loc)) := by
  unfold resolveSubscript
  rw [noFamily, if_neg (by simp), if_neg notSettings]
  rfl

/-! ## Types of resolved subscripts -/

namespace Types

variable {word : Ident} {keyLoc : Option Location}

theorem subscriptType_setting (ofSettings : isSettingBase base.name = true)
    (typed : registry.settingType? word.name = some type) :
    subscriptType registry base (.ident word keyLoc) = .ok (.known type) := by
  have notEval : base.name ≠ evalName := by
    intro isEval
    rw [isEval] at ofSettings
    revert ofSettings
    decide
  unfold subscriptType
  rw [if_neg notEval]
  dsimp only [Expr.name?]
  rw [if_pos ofSettings, typed]
  rfl

theorem subscriptType_other (isOther : base.name = otherName) {category : Category}
    (categoryFound : registry.category? base.name = some category) {other : NamedValue}
    (found : registry.otherTarget? word.name = some other) :
    subscriptType registry base (.ident word keyLoc) = .ok (.known other.type) := by
  have notEval : base.name ≠ evalName := by
    rw [isOther]
    decide
  have notSettings : ¬ isSettingBase base.name = true := by
    rw [isOther]
    decide
  unfold subscriptType
  rw [if_neg notEval]
  dsimp only [Expr.name?]
  rw [if_neg notSettings, categoryFound]
  dsimp only
  rw [if_pos isOther, found]
  rfl

theorem subscriptType_category (notReserved : base.name ∉ reservedCategories)
    {category : Category} (categoryFound : registry.category? base.name = some category)
    (typed : category.type = some type)
    (isAllowed : ∀ allowed ∈ category.allowed, word.name ∈ allowed) :
    subscriptType registry base (.ident word keyLoc) = .ok (.known type) := by
  obtain ⟨notOther, notEval, notSettings⟩ := of_not_reserved notReserved
  have passes : (category.allowed.map fun allowed => allowed.contains word.name).getD true =
      true := by
    cases listed : category.allowed with
    | none => rfl
    | some allowed => simpa using isAllowed allowed listed
  unfold subscriptType
  rw [if_neg notEval]
  dsimp only [Expr.name?]
  rw [if_neg notSettings, categoryFound]
  dsimp only
  rw [if_neg notOther, if_pos passes, typed]
  rfl

end Types

/-! ## Agreement, by the kind of the base -/

/-- What aliases and families make of a subscript is a subscript with this type. -/
def ResolvesTo (registry : Registry) (type : ValueType) (base : Ident) (key : Expr) : Prop :=
  ∀ (loc : Option Location) (aliased resolved : Revised Expr),
    Alias.resolve registry (.subscript base key loc) = .ok aliased →
    Families.resolve registry aliased.value = .ok resolved →
      ∃ newBase newKey newLoc, resolved.value = .subscript newBase newKey newLoc ∧
        Types.subscriptType registry newBase newKey = .ok (.known type)

namespace Registry.Consistent

theorem resolvesTo_category (consistent : registry.Consistent) {category : Category}
    (categoryFound : registry.category? base.name = some category)
    (typed : category.type = some type) (key : Expr) : ResolvesTo registry type base key := by
  intro loc aliased resolved aliasRan familyRan
  have notReserved := consistent.not_reserved categoryFound typed
  have noFamily := consistent.noFamily_of_category categoryFound
  obtain ⟨notOther, notEval, notSettings⟩ := of_not_reserved notReserved
  have notSkipped : ¬ Alias.Skips registry base.name := by
    rintro (isEval | ofSettings | isFamily)
    · exact notEval isEval
    · exact notSettings ofSettings
    · rw [noFamily] at isFamily
      cases isFamily
  obtain ⟨found, word, canonical, keyLoc, newLoc, isFound, rfl, canonicalFound, aliasedIs⟩ :=
    Alias.exists_canonicalKey? notSkipped aliasRan
  rw [categoryFound] at isFound
  cases isFound
  obtain ⟨_, isAllowed⟩ := (Alias.canonicalKey?_eq_some_iff notOther).mp canonicalFound
  rw [aliasedIs] at familyRan
  have kept :=
    Families.resolveSubscript_category noFamily notSettings ⟨canonical, newLoc⟩ keyLoc loc
  have same := Except.ok.inj (kept.symm.trans familyRan)
  refine ⟨base, _, loc, congrArg Revised.value same.symm, ?_⟩
  exact Types.subscriptType_category notReserved categoryFound typed isAllowed

/-- A family, which becomes the current value of one of its members. -/
theorem resolvesTo_family (consistent : registry.Consistent)
    (familyFound : registry.family? base.name = some family) (key : Expr) :
    ResolvesTo registry family.type base key := by
  intro loc aliased resolved aliasRan familyRan
  have isFamily : (registry.family? base.name).isSome = true := by
    rw [familyFound]
    rfl
  have kept := Alias.resolveSubscript_skipped (.inr (.inr isFamily)) key loc
  cases Except.ok.inj (kept.symm.trans aliasRan)
  change Families.resolveSubscript registry base key loc = .ok resolved at familyRan
  unfold Families.resolveSubscript at familyRan
  rw [if_pos isFamily] at familyRan
  obtain ⟨id, memberFound, rfl⟩ := bind_pure_eq_ok_iff.mp familyRan
  have typed := Families.settingType?_memberId consistent familyFound memberFound
  exact ⟨_, _, _, rfl, Types.subscriptType_setting rfl typed⟩

theorem resolvesTo_settings (consistent : registry.Consistent)
    (ofSettings : isSettingBase base.name = true)
    (typed : Lists.settingElementType? registry key = some type) :
    ResolvesTo registry type base key := by
  intro loc aliased resolved aliasRan familyRan
  have noFamily := consistent.noFamily_of_settings ofSettings
  have skipped : Alias.Skips registry base.name := .inr (.inl ofSettings)
  have kept := Alias.resolveSubscript_skipped skipped key loc
  cases Except.ok.inj (kept.symm.trans aliasRan)
  change Families.resolveSubscript registry base key loc = .ok resolved at familyRan
  unfold Families.resolveSubscript at familyRan
  rw [noFamily, if_neg (by simp), if_pos ofSettings] at familyRan
  cases key with
  | ident word keyLoc =>
    change registry.settingType? word.name = some type at typed
    dsimp only at familyRan
    rw [typed] at familyRan
    cases familyRan
    exact ⟨_, _, _, rfl, Types.subscriptType_setting ofSettings typed⟩
  | subscript innerBase innerKey keyLoc =>
    obtain ⟨family, familyFound, rfl⟩ := Option.map_eq_some_iff.mp typed
    obtain ⟨id, memberFound, rfl⟩ := bind_pure_eq_ok_iff.mp familyRan
    have memberTyped := Families.settingType?_memberId consistent familyFound memberFound
    exact ⟨_, _, _, rfl, Types.subscriptType_setting ofSettings memberTyped⟩
  | _ => cases typed

/-- The category of named values.  A key whose type is unknown is not accepted. -/
theorem resolvesTo_other (consistent : registry.Consistent) (isOther : base.name = otherName)
    (typed : ∀ own, Lists.otherElementType? registry key = some own → own = type) :
    ResolvesTo registry type base key := by
  intro loc aliased resolved aliasRan familyRan
  have noFamily : registry.family? base.name = none := by
    apply consistent.noFamily
    rw [isOther]
    decide
  have notSettings : ¬ isSettingBase base.name = true := by
    rw [isOther]
    decide
  have notSkipped : ¬ Alias.Skips registry base.name := by
    rintro (isEval | ofSettings | isFamily)
    · rw [isOther] at isEval
      revert isEval
      decide
    · exact notSettings ofSettings
    · rw [noFamily] at isFamily
      cases isFamily
  obtain ⟨category, word, canonical, keyLoc, newLoc, categoryFound, rfl, canonicalFound,
    aliasedIs⟩ := Alias.exists_canonicalKey? notSkipped aliasRan
  rw [aliasedIs] at familyRan
  have kept :=
    Families.resolveSubscript_category noFamily notSettings ⟨canonical, newLoc⟩ keyLoc loc
  have same := Except.ok.inj (kept.symm.trans familyRan)
  refine ⟨base, _, loc, congrArg Revised.value same.symm, ?_⟩
  -- The key is looked up by its name first, and by its target if no value has that name.
  rw [Alias.canonicalKey?, if_pos isOther] at canonicalFound
  cases entry : registry.other? word.name with
  | some other =>
    rw [entry] at canonicalFound
    cases canonicalFound
    have ownType : other.type = type := by
      apply typed
      simp [Lists.otherElementType?, Expr.name?, entry]
    obtain ⟨found, targeted, sameType⟩ := consistent.type_otherTarget? entry
    rw [← ownType, ← sameType]
    exact Types.subscriptType_other isOther categoryFound targeted
  | none =>
    rw [entry] at canonicalFound
    obtain ⟨other, targeted, rfl⟩ := Option.map_eq_some_iff.mp canonicalFound
    have ownType : other.type = type := by
      apply typed
      simp [Lists.otherElementType?, Expr.name?, entry, targeted]
    rw [← ownType]
    exact Types.subscriptType_other isOther categoryFound targeted

end Registry.Consistent

/-- The built-in registry is consistent, and in a consistent registry the type by which lists under
a base are folded is the type that the checker gives to each of the subscripts, once aliases and
families are resolved in it. -/
theorem subscriptType_of_baseType :
    Registry.builtin.Consistent ∧
      ∀ registry : Registry, registry.Consistent →
        ∀ (base : Ident) (keys : List Expr) (type : ValueType),
          Lists.baseType registry base.name keys = .ok (some type) →
            ∀ key ∈ keys, ∀ (loc : Option Location) (aliased resolved : Revised Expr),
              Alias.resolve registry (.subscript base key loc) = .ok aliased →
              Families.resolve registry aliased.value = .ok resolved →
                ∃ newBase newKey newLoc, resolved.value = .subscript newBase newKey newLoc ∧
                  Types.subscriptType registry newBase newKey = .ok (.known type) := by
  refine ⟨Registry.consistent_builtin, ?_⟩
  intro registry consistent base keys type typed key member
  unfold Lists.baseType at typed
  cases declared : (registry.category? base.name).bind Category.type with
  | some own =>
    rw [declared] at typed
    cases typed
    obtain ⟨category, categoryFound, ownType⟩ := Option.bind_eq_some_iff.mp declared
    exact consistent.resolvesTo_category categoryFound ownType key
  | none =>
    rw [declared] at typed
    dsimp only at typed
    cases familyFound : registry.family? base.name with
    | some family =>
      rw [familyFound] at typed
      cases typed
      exact consistent.resolvesTo_family familyFound key
    | none =>
      rw [familyFound] at typed
      dsimp only at typed
      by_cases ofSettings : isSettingBase base.name = true
      · rw [if_pos ofSettings] at typed
        obtain ⟨_, _, each⟩ := Lists.settingElementType?_of_shared typed
        exact consistent.resolvesTo_settings ofSettings (each key member)
      · rw [if_neg ofSettings] at typed
        by_cases isOther : base.name = otherName
        · rw [if_pos isOther] at typed
          obtain ⟨_, _, each⟩ := Lists.otherElementType?_of_shared typed
          refine consistent.resolvesTo_other isOther fun own found => ?_
          have isOwn := each own (List.mem_filterMap.mpr ⟨key, member, found⟩)
          exact Option.some.inj isOwn
        · rw [if_neg isOther] at typed
          cases typed

/-- A list of settings, one of which is a member of a family. -/
theorem subscriptType_of_baseType_settings :
    ∃ (base : Ident) (keys : List Expr) (member : Expr) (aliased resolved : Revised Expr),
      base.name = settingDefault ∧ keys.length = 2 ∧ member ∈ keys ∧
      Lists.baseType Registry.builtin base.name keys = .ok (some .boolean) ∧
      Alias.resolve Registry.builtin (.subscript base member none) = .ok aliased ∧
      Families.resolve Registry.builtin aliased.value = .ok resolved ∧
      ∃ newBase newKey newLoc, resolved.value = .subscript newBase newKey newLoc ∧
        newKey.name? = some "sellCoal" ∧
        Types.subscriptType Registry.builtin newBase newKey = .ok (.known .boolean) := by
  let base : Ident := ⟨settingDefault, none⟩
  let plain : Expr := .ident ⟨"autoBuild", none⟩ none
  let member : Expr := .subscript ⟨"Sell", none⟩ (.ident ⟨"Coal", none⟩ none) none
  let id : Expr := .ident ⟨"sellCoal", none⟩ none
  have inList : member ∈ [plain, member] := List.mem_cons_of_mem _ (List.mem_singleton_self _)
  have typed : Lists.baseType Registry.builtin base.name [plain, member] = .ok (some .boolean) := by
    decide +kernel
  have aliasRan : Alias.resolve Registry.builtin (.subscript base member none) =
      .ok (.kept (.subscript base member none)) := rfl
  have familyRan : Families.resolve Registry.builtin (.subscript base member none) =
      .ok (.new (.subscript base id none)) := by
    rfl
  obtain ⟨consistent, agree⟩ := subscriptType_of_baseType
  obtain ⟨newBase, newKey, newLoc, isNew, checked⟩ :=
    agree _ consistent base _ _ typed member inList none _ _ aliasRan familyRan
  refine ⟨base, _, member, _, _, rfl, rfl, inList, typed, aliasRan, familyRan, newBase, newKey,
    newLoc, isNew, ?_, checked⟩
  cases isNew
  rfl

end AutomationScript
