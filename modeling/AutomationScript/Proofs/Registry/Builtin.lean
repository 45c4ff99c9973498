import AutomationScript.Proofs.Lowering.Families
import AutomationScript.Proofs.Registry.KeyAliases
import AutomationScript.Registry.Builtin

/-!
# The built-in registry is stable

The built-in registry has no table of renamed keys, and none of its words is a word of something
else.
-/

namespace AutomationScript

/-! ## Words of triggers -/

/-- An id in form stays in form, unless its stem makes one id into another. -/
theorem canonicalId_canonicalId {vocabulary : Vocabulary}
    (stems : ∀ stem ∈ vocabulary.idStem, ∀ id ∈ vocabulary.allowed, stem ++ id ∉ vocabulary.allowed)
    {id canonical : String} (found : vocabulary.canonicalId id = some canonical) :
    vocabulary.canonicalId canonical = some canonical := by
  have again := found
  rw [Vocabulary.canonicalId] at found
  cases hasStem : vocabulary.idStem with
  | none =>
    rw [hasStem] at found
    dsimp only at found
    split at found
    · cases found
      exact again
    · cases found
  | some stem =>
    rw [hasStem] at found
    dsimp only at found
    split at found
    · next isAllowed =>
        cases found
        rw [List.contains_iff_mem] at isAllowed
        have notAllowed := stems stem hasStem id isAllowed
        simp [Vocabulary.canonicalId, hasStem, afterStem?_append, isAllowed, notAllowed]
    · split at found
      · split at found
        · cases found
          exact again
        · cases found
      · cases found

/-- The laws of trigger words, in a form that can be checked entry by entry. -/
theorem Table.StableWords.ofEntries {table : Table Vocabulary}
    (types : (table.values.map Vocabulary.type).Nodup)
    (names : ∀ entry ∈ table.entries, ∀ name ∈ table.keys, entry.2.type = name → entry.1 = name)
    (stems : ∀ vocabulary ∈ table.values, ∀ stem ∈ vocabulary.idStem,
      ∀ id ∈ vocabulary.allowed, stem ++ id ∉ vocabulary.allowed) :
    table.StableWords where
  types := types
  names := by
    intro name other vocabulary typed named typedNamed sameType
    have isName : name ∈ table.keys :=
      Table.isSome_get?_iff.mp (Option.isSome_iff_exists.mpr ⟨vocabulary, named⟩)
    obtain ⟨front, back, whole, _⟩ := List.lookup_eq_some_iff.mp typedNamed
    have isEntry : (other, typed) ∈ table.entries := by
      rw [whole]
      simp
    exact names (other, typed) isEntry name isName sameType
  ids vocabulary member _ _ found := canonicalId_canonicalId (stems vocabulary member) found

/-! ## The built-in registry -/

/-- Whether keys are looked up one by one. -/
def KeyAlias.isTable : KeyAlias → Bool
  | .table _ => true
  | _ => false

theorem direct_builtin
    {category : Category} (member : category ∈ Registry.builtin.categories.values)
    {keyAlias : KeyAlias} (hasAlias : category.keyAlias = some keyAlias) : keyAlias.Direct := by
  have noTables : ∀ category ∈ Registry.builtin.categories.values,
      category.keyAlias.any KeyAlias.isTable = false := by
    decide +kernel
  have noTable := noTables category member
  rw [hasAlias] at noTable
  cases keyAlias with
  | table entries => cases noTable
  | _ => trivial

theorem Registry.stable_builtin : Registry.builtin.Stable where
  noCurrentFamily := by
    decide +kernel
  keyAliases := by
    intro base category keyAlias key categoryFound hasAlias _
    exact (direct_builtin (Table.mem_values_of_get? categoryFound) hasAlias).apply_apply key
  others := by
    intro short other inner found innerFound
    have noChain : ∀ other ∈ Registry.builtin.others.values,
        Registry.builtin.other? other.target = none := by
      decide +kernel
    rw [noChain other (Table.mem_values_of_get? found)] at innerFound
    cases innerFound
  conditions := by
    refine Table.StableWords.ofEntries ?_ ?_ ?_ <;> decide +kernel
  actions := by
    refine Table.StableWords.ofEntries ?_ ?_ ?_ <;> decide +kernel

end AutomationScript
