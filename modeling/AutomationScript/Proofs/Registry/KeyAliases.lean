import AutomationScript.Proofs.Registry.Stable
import AutomationScript.Proofs.Text.LowerCase

/-!
# Keys that are brought into form twice

Keys in lower case and keys with a word before them are in form once and for all.  A table may
rename a key to one that it renames further, and then a key is in form only after several turns.
-/

namespace AutomationScript

namespace KeyAlias

/-- No key is renamed to one that is renamed to something else. -/
def Direct : KeyAlias → Prop
  | .lowercase | .namespaced _ => True
  | .table entries => ∀ name target further,
      entries.get? name = some target → entries.get? target = some further → further = target

theorem apply_namespaced_of_hyphen (word : String) {key : String} (hyphen : '-' ∈ key.toList) :
    (KeyAlias.namespaced word).apply key = key :=
  if_pos (List.contains_iff_mem.mpr hyphen)

theorem hyphen_mem_apply_namespaced (word key : String) :
    '-' ∈ ((KeyAlias.namespaced word).apply key).toList := by
  rw [apply]
  split
  · next hyphen => exact List.contains_iff_mem.mp hyphen
  · simp

theorem Direct.apply_apply {keyAlias : KeyAlias} (direct : keyAlias.Direct) (key : String) :
    keyAlias.apply (keyAlias.apply key) = keyAlias.apply key := by
  cases keyAlias with
  | lowercase => exact lowerCase_lowerCase key
  | namespaced word => exact apply_namespaced_of_hyphen word (hyphen_mem_apply_namespaced word key)
  | table entries =>
    simp only [apply]
    cases renamed : entries.get? key with
    | none => simp [renamed]
    | some target =>
      cases further : entries.get? target with
      | none => simp [further]
      | some final => simp [further, direct key target final renamed further]

theorem direct_of_apply_apply {keyAlias : KeyAlias}
    (twice : ∀ key, keyAlias.apply (keyAlias.apply key) = keyAlias.apply key) :
    keyAlias.Direct := by
  cases keyAlias with
  | table entries =>
    intro name target further renamed again
    simpa [apply, renamed, again] using twice name
  | _ => trivial

end KeyAlias

/-- Bringing a key into form twice is the same as doing it once, for all keys, exactly if no key is
renamed to one that is renamed to something else; so it is for lower case and for a word before the
key.  Then a key that was brought into form is left as it is, whatever category it belongs to. -/
theorem apply_apply_iff_direct (keyAlias : KeyAlias) :
    ((∀ key, keyAlias.apply (keyAlias.apply key) = keyAlias.apply key) ↔ keyAlias.Direct) ∧
      (keyAlias.Direct → ∀ registry base category key canonical, base ≠ otherName →
        category.keyAlias = some keyAlias →
        Alias.canonicalKey? registry base category key = some canonical →
        Alias.canonicalKey? registry base category canonical = some canonical) := by
  refine ⟨⟨KeyAlias.direct_of_apply_apply, KeyAlias.Direct.apply_apply⟩, ?_⟩
  intro direct registry base category key canonical notOther hasAlias found
  obtain ⟨isAlias, allowed⟩ := (Alias.canonicalKey?_eq_some_iff notOther).mp found
  refine (Alias.canonicalKey?_eq_some_iff notOther).mpr ⟨?_, allowed⟩
  rw [hasAlias] at isAlias ⊢
  rw [← isAlias]
  exact direct.apply_apply key

/-- Two names for `b`, one of them `b` itself. -/
def directRenames : Table String :=
  ⟨[("a", "b"), ("b", "b")], by decide⟩

theorem apply_apply_iff_direct_directRenames :
    (KeyAlias.table directRenames).Direct ∧
      ∀ key, (KeyAlias.table directRenames).apply ((KeyAlias.table directRenames).apply key) =
        (KeyAlias.table directRenames).apply key := by
  have direct : (KeyAlias.table directRenames).Direct := by
    intro name target further renamed again
    have isTarget := Table.mem_values_of_get? renamed
    obtain rfl : target = "b" := by simpa [directRenames, Table.values] using isTarget
    exact Option.some.inj again.symm
  exact ⟨direct, (apply_apply_iff_direct _).1.mpr direct⟩

/-- A table that renames `a` to `b` and `b` to `c`. -/
def chainedRenames : Table String :=
  ⟨[("a", "b"), ("b", "c")], by decide⟩

theorem apply_chainedRenames_twice :
    (KeyAlias.table chainedRenames).apply "a" = "b" ∧
      (KeyAlias.table chainedRenames).apply ((KeyAlias.table chainedRenames).apply "a") = "c" := by
  decide

end AutomationScript
