import Mathlib.Data.List.Nodup
import AutomationScript.Proofs.Lowering.Aliases

/-!
# Stable registries

In a stable registry, what is in the form that the runtime knows is left alone: keys of categories,
names of values, and the words of triggers.
-/

namespace AutomationScript

open List

/-- The kinds and ids of one table of trigger words are fixed by bringing them into form. -/
structure Table.StableWords (table : Table Vocabulary) : Prop where
  /-- No two entries have the same type. -/
  types : (table.values.map Vocabulary.type).Nodup
  /-- An entry that is named after a type is the entry with that type. -/
  names : ∀ {name other : String} {vocabulary typed : Vocabulary},
    table.get? name = some vocabulary → table.get? other = some typed → typed.type = name →
    other = name
  ids : ∀ vocabulary ∈ table.values, ∀ id canonical,
    vocabulary.canonicalId id = some canonical →
    vocabulary.canonicalId canonical = some canonical

/-- Bringing names into the form that the runtime knows leaves that form alone. -/
structure Registry.Stable (registry : Registry) : Prop where
  noCurrentFamily : registry.family? settingCurrent = none
  keyAliases : ∀ {base : String} {category : Category} {keyAlias : KeyAlias} {key : String},
    registry.category? base = some category → category.keyAlias = some keyAlias →
    registry.IsName key →
    keyAlias.apply (keyAlias.apply key) = keyAlias.apply key
  others : ∀ {short : String} {other inner : NamedValue},
    registry.other? short = some other → registry.other? other.target = some inner →
    inner.target = other.target
  conditions : registry.conditions.StableWords
  actions : registry.actions.StableWords

/-! ## Keys of categories -/

namespace Alias

variable {registry : Registry}

theorem canonicalKey?_of_ne_other
    {base : String} (notOther : base ≠ otherName) (category : Category) (key : String) :
    canonicalKey? registry base category key =
      let canonical := (category.keyAlias.map (KeyAlias.apply key)).getD key
      match category.allowed with
      | some allowed => if allowed.contains canonical then some canonical else none
      | none => some canonical := by
  rw [canonicalKey?, if_neg notOther]
  cases category.keyAlias <;> rfl

/-- Outside the category of named values, a key in form is the alias of the key it was made from
and is allowed. -/
theorem canonicalKey?_eq_some_iff
    {base : String} (notOther : base ≠ otherName) {category : Category} {key name : String} :
    canonicalKey? registry base category key = some name ↔
      (category.keyAlias.map (KeyAlias.apply key)).getD key = name ∧
        ∀ allowed ∈ category.allowed, name ∈ allowed := by
  rw [canonicalKey?_of_ne_other notOther]
  cases category.allowed with
  | none => simp
  | some allowed =>
    dsimp only
    split
    · next isAllowed =>
        rw [contains_iff_mem] at isAllowed
        constructor
        · rintro same
          cases same
          refine ⟨rfl, fun _ isIt => ?_⟩
          cases isIt
          exact isAllowed
        · rintro ⟨same, _⟩
          rw [same]
    · next notAllowed =>
        rw [contains_iff_mem] at notAllowed
        constructor
        · intro impossible
          cases impossible
        · rintro ⟨rfl, each⟩
          exact absurd (each allowed rfl) notAllowed

theorem canonicalKey?_of_knows (stable : registry.Stable) {base name : String} {category : Category}
    (categoryFound : registry.category? base = some category) (knows : registry.Knows base name) :
    canonicalKey? registry base category name = some name := by
  rcases knows with ⟨isOther, short, other, found, isTarget⟩ |
    ⟨notOther, found, key, sameCategory, named, canonical⟩
  · subst isTarget
    rw [canonicalKey?, if_pos isOther]
    cases inner : registry.other? other.target with
    | some again => exact congrArg some (stable.others found inner)
    | none =>
      have targeted : (registry.otherTarget? other.target).isSome = true := by
        rw [Registry.otherTarget?, find?_isSome]
        exact ⟨other, Table.mem_values_of_get? found, beq_self_eq_true _⟩
      obtain ⟨entry, entryFound⟩ := Option.isSome_iff_exists.mp targeted
      dsimp only
      rw [entryFound]
      rfl
  · rw [sameCategory] at categoryFound
    cases categoryFound
    obtain ⟨isAlias, allowed⟩ := (canonicalKey?_eq_some_iff notOther).mp canonical
    refine (canonicalKey?_eq_some_iff notOther).mpr ⟨?_, allowed⟩
    cases hasAlias : category.keyAlias with
    | none => rfl
    | some keyAlias =>
      rw [hasAlias] at isAlias
      have twice := stable.keyAliases sameCategory hasAlias named
      rw [← isAlias]
      exact twice

end Alias

/-! ## Words of triggers -/

namespace Table.StableWords

variable {table : Table Vocabulary}

theorem lookup_type (stable : table.StableWords) {lookup : String → Option Vocabulary}
    (isLookup : ∀ kind, lookup kind =
      match table.get? kind with
      | some vocabulary => some vocabulary
      | none => table.values.find? fun vocabulary => vocabulary.type == kind)
    {kind : String} {vocabulary : Vocabulary} (found : lookup kind = some vocabulary) :
    vocabulary ∈ table.values ∧ lookup vocabulary.type = some vocabulary := by
  have isEntry : vocabulary ∈ table.values := by
    rw [isLookup] at found
    cases byName : table.get? kind with
    | some entry =>
      rw [byName] at found
      cases found
      exact Table.mem_values_of_get? byName
    | none =>
      rw [byName] at found
      exact mem_of_find?_eq_some found
  refine ⟨isEntry, ?_⟩
  rw [isLookup]
  cases byName : table.get? vocabulary.type with
  | some entry =>
    obtain ⟨name, nameFound⟩ := Table.exists_get?_of_mem_values isEntry
    have sameName : name = vocabulary.type := stable.names byName nameFound rfl
    rw [sameName, byName] at nameFound
    exact nameFound
  | none =>
    dsimp only
    cases byType : table.values.find? fun entry => entry.type == vocabulary.type with
    | none =>
      have noEntry := find?_eq_none.mp byType vocabulary isEntry
      exact absurd (beq_self_eq_true vocabulary.type) noEntry
    | some entry =>
      have matching := find?_some byType
      have sameType : entry.type = vocabulary.type := eq_of_beq matching
      have isOther := mem_of_find?_eq_some byType
      rw [inj_on_of_nodup_map stable.types isOther isEntry sameType]

end Table.StableWords

end AutomationScript
