import AutomationScript.Table

/-!
# Looking up table entries

What a table holds under a name: every entry under its own, also after an entry was inserted.
-/

namespace AutomationScript

open List

namespace Table

variable {α : Type}
variable {name : String}

theorem lookup_replaceEntry (name : String) (value : α) (entries : List (String × α))
    (tested : String) :
    (replaceEntry name value entries).lookup tested =
      (entries.lookup tested).map fun old => if tested = name then value else old := by
  induction entries with
  | nil =>
    rfl
  | cons entry rest ih =>
    obtain ⟨key, old⟩ := entry
    rw [replaceEntry] at ih ⊢
    by_cases here : tested = key
    · subst here
      by_cases replaced : tested = name
      · simp [replaced]
      · simp [replaced]
    · have other : (tested == key) = false := by
        simpa using here
      by_cases replaced : key = name
      · subst replaced
        simpa [lookup_cons, other] using ih
      · simpa [lookup_cons, other, replaced] using ih

variable {t : Table α}

theorem isSome_get?_iff : (t.get? name).isSome ↔ name ∈ t.entries.map Prod.fst := by
  rw [get?, lookup_isSome_iff, mem_map]
  constructor
  · rintro ⟨entry, member, same⟩
    exact ⟨entry, member, (eq_of_beq same).symm⟩
  · rintro ⟨entry, member, same⟩
    exact ⟨entry, member, beq_iff_eq.mpr same.symm⟩

theorem contains_eq_isSome_get? (t : Table α) (name : String) :
    t.contains name = (t.get? name).isSome := by
  rw [Bool.eq_iff_iff, isSome_get?_iff, contains, keys, contains_iff_mem]

theorem get?_eq_none_iff : t.get? name = none ↔ name ∉ t.keys := by
  rw [← Option.not_isSome_iff_eq_none, isSome_get?_iff, keys]

theorem entries_insert (absent : name ∉ t.entries.map Prod.fst) (value : α) :
    (t.insert name value).entries = t.entries ++ [(name, value)] := by
  simp only [insert, dif_neg absent]

theorem get?_insert (t : Table α) (name : String) (value : α) (tested : String) :
    (t.insert name value).get? tested = if tested = name then some value else t.get? tested := by
  by_cases taken : name ∈ t.entries.map Prod.fst
  · have inserted : (t.insert name value).entries = replaceEntry name value t.entries := by
      simp only [insert, dif_pos taken]
    rw [get?, inserted, lookup_replaceEntry]
    by_cases same : tested = name
    · subst same
      obtain ⟨old, found⟩ := Option.isSome_iff_exists.mp (isSome_get?_iff.mpr taken)
      rw [get?] at found
      simp [found]
    · simp [same, get?]
  · rw [get?, entries_insert taken, lookup_append]
    by_cases same : tested = name
    · subst same
      have absent : t.entries.lookup tested = none := by
        exact Option.not_isSome_iff_eq_none.mp (mt isSome_get?_iff.mp taken)
      simp [absent]
    · have other : (tested == name) = false := by
        simpa using same
      simp [same, lookup_cons, other, get?]

theorem keys_insert (t : Table α) (name : String) (value : α) :
    (t.insert name value).keys = if name ∈ t.keys then t.keys else t.keys ++ [name] := by
  rw [keys, keys, insert]
  by_cases taken : name ∈ t.entries.map Prod.fst
  · rw [dif_pos taken, if_pos taken, keys_replaceEntry]
  · rw [dif_neg taken, if_neg taken, map_append]
    rfl

variable {entries : List (String × α)} {value : α}

theorem lookup_eq_some_of_mem (nodup : (entries.map Prod.fst).Nodup)
    (member : (name, value) ∈ entries) : entries.lookup name = some value := by
  induction entries with
  | nil =>
    cases member
  | cons entry rest ih =>
    obtain ⟨key, first⟩ := entry
    rw [map_cons, nodup_cons] at nodup
    rcases mem_cons.mp member with same | later
    · cases same
      simp
    · have different : (name == key) = false := by
        refine beq_eq_false_iff_ne.mpr fun same => nodup.1 ?_
        exact mem_map.mpr ⟨(name, value), later, same⟩
      rw [lookup_cons, different]
      exact ih nodup.2 later

theorem get?_eq_some_iff : t.get? name = some value ↔ (name, value) ∈ t.entries := by
  refine ⟨fun found => ?_, lookup_eq_some_of_mem t.nodup⟩
  obtain ⟨front, back, whole, _⟩ := lookup_eq_some_iff.mp found
  rw [whole]
  exact mem_append_right _ mem_cons_self

theorem lookup_filterEntries (keep : String → Bool) (entries : List (String × α)) (name : String) :
    (entries.filter fun entry => keep entry.1).lookup name =
      if keep name then entries.lookup name else none := by
  induction entries with
  | nil => simp
  | cons entry rest ih =>
    obtain ⟨key, value⟩ := entry
    by_cases here : name = key
    · subst here
      cases kept : keep name <;> simp [kept, ih]
    · have skipped : (name == key) = false := beq_eq_false_iff_ne.mpr here
      cases kept : keep key <;> simp [kept, ih, lookup_cons, skipped]

theorem lookup_eq_none (absent : name ∉ entries.map Prod.fst) : entries.lookup name = none := by
  rw [lookup_eq_none_iff]
  intro entry member
  rw [bne_iff_ne]
  rintro rfl
  exact absent (mem_map_of_mem member)

/-- Lists of entries are the same if they have the same names in the same order and the same entry
under each. -/
theorem entries_eq_of_lookup {others : List (String × α)} (nodup : (entries.map Prod.fst).Nodup)
    (sameNames : entries.map Prod.fst = others.map Prod.fst)
    (sameEntries : ∀ name, entries.lookup name = others.lookup name) : entries = others := by
  induction entries generalizing others with
  | nil =>
    rw [map_nil] at sameNames
    exact (map_eq_nil_iff.mp sameNames.symm).symm
  | cons entry rest ih =>
    cases others with
    | nil => cases sameNames
    | cons other others =>
      obtain ⟨name, value⟩ := entry
      obtain ⟨otherName, otherValue⟩ := other
      rw [map_cons, map_cons, List.cons.injEq] at sameNames
      obtain ⟨sameName, sameRest⟩ := sameNames
      dsimp only at sameName
      subst sameName
      rw [map_cons, nodup_cons] at nodup
      have sameValue := sameEntries name
      rw [lookup_cons_self, lookup_cons_self] at sameValue
      cases sameValue
      have restSame : rest = others := by
        refine ih nodup.2 sameRest fun tested => ?_
        by_cases here : tested = name
        · have absent : name ∉ others.map Prod.fst := sameRest ▸ nodup.1
          rw [here, lookup_eq_none nodup.1, lookup_eq_none absent]
        · have tails := sameEntries tested
          have skipped : (tested == name) = false := beq_eq_false_iff_ne.mpr here
          rw [lookup_cons, lookup_cons, skipped] at tails
          exact tails
      rw [restSame]

/-- A table is given by its names in order and the entry under each. -/
theorem ext_get? {s : Table α} (sameKeys : s.keys = t.keys)
    (sameEntries : ∀ name, s.get? name = t.get? name) : s = t :=
  ext_entries (entries_eq_of_lookup s.nodup sameKeys sameEntries)

theorem exists_get?_of_mem_values (member : value ∈ t.values) :
    ∃ name, t.get? name = some value := by
  obtain ⟨⟨name, _⟩, isEntry, rfl⟩ := mem_map.mp member
  exact ⟨name, get?_eq_some_iff.mpr isEntry⟩

theorem mem_values_of_get? (found : t.get? name = some value) : value ∈ t.values :=
  mem_map_of_mem (get?_eq_some_iff.mp found)

theorem entries_insertAll {more : List (String × α)}
    (distinct : ((t.entries ++ more).map Prod.fst).Nodup) :
    (t.insertAll more).entries = t.entries ++ more := by
  induction more generalizing t with
  | nil => exact (append_nil _).symm
  | cons entry more ih =>
    have absent : entry.1 ∉ t.entries.map Prod.fst := by
      intro taken
      rw [map_append, map_cons, nodup_append] at distinct
      exact distinct.2.2 _ taken _ mem_cons_self rfl
    have inserted := entries_insert absent entry.2
    have further := @ih (t.insert entry.1 entry.2) (by simpa [inserted] using distinct)
    rw [inserted, append_assoc] at further
    exact further

theorem extend_empty (t : Table α) : empty.extend t = t :=
  ext_entries (entries_insertAll t.nodup)

end Table

end AutomationScript
