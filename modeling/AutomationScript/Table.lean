/-!
# Tables

A table maps names to entries and keeps the order in which the names came first.  An entry under a
name that is taken replaces the old entry and keeps its place.
-/

namespace AutomationScript

/-- Entries by name, in the order of their names' first appearance. -/
structure Table (α : Type) where
  entries : List (String × α)
  nodup : (entries.map Prod.fst).Nodup

namespace Table

variable {α : Type}

theorem ext_entries {s t : Table α} (same : s.entries = t.entries) : s = t := by
  cases s
  cases t
  cases same
  rfl

instance [DecidableEq α] : DecidableEq (Table α) := fun s t =>
  if same : s.entries = t.entries then
    isTrue (ext_entries same)
  else
    isFalse fun equal => same (by rw [equal])

instance [Repr α] : Repr (Table α) := ⟨fun t => reprPrec t.entries⟩

def empty : Table α :=
  ⟨[], List.nodup_nil⟩

instance : Inhabited (Table α) := ⟨empty⟩

/-- The names, in order. -/
def keys (t : Table α) : List String :=
  t.entries.map Prod.fst

/-- The entries without their names, in order. -/
def values (t : Table α) : List α :=
  t.entries.map Prod.snd

def size (t : Table α) : Nat :=
  t.entries.length

def contains (t : Table α) (name : String) : Bool :=
  t.keys.contains name

/-- The entry under a name. -/
def get? (t : Table α) (name : String) : Option α :=
  t.entries.lookup name

/-- The entries with the one under `name` replaced. -/
def replaceEntry (name : String) (value : α) (entries : List (String × α)) : List (String × α) :=
  entries.map fun entry => if entry.1 = name then (entry.1, value) else entry

theorem keys_replaceEntry (name : String) (value : α) (entries : List (String × α)) :
    (replaceEntry name value entries).map Prod.fst = entries.map Prod.fst := by
  induction entries with
  | nil => rfl
  | cons entry rest ih =>
    have head : (if entry.1 = name then (entry.1, value) else entry).1 = entry.1 := by
      split <;> rfl
    simp only [replaceEntry, List.map_cons, head] at ih ⊢
    rw [ih]

/-- The table with `value` under `name`: in the place of the old entry, or at the end. -/
def insert (t : Table α) (name : String) (value : α) : Table α :=
  if taken : name ∈ t.entries.map Prod.fst then
    ⟨replaceEntry name value t.entries, by
      rw [keys_replaceEntry]
      exact t.nodup⟩
  else
    ⟨t.entries ++ [(name, value)], by
      have last : ∀ a ∈ t.entries.map Prod.fst, ∀ b ∈ [name], a ≠ b := by
        intro a inside b equal
        rw [List.mem_singleton] at equal
        rw [equal]
        exact fun same => taken (same ▸ inside)
      rw [List.map_append]
      exact List.nodup_append.mpr ⟨t.nodup, List.pairwise_singleton _ _, last⟩⟩

/-- The table with every entry of a list, in order. -/
def insertAll (t : Table α) (entries : List (String × α)) : Table α :=
  entries.foldl (fun table entry => table.insert entry.1 entry.2) t

def ofList (entries : List (String × α)) : Table α :=
  empty.insertAll entries

/-- The table with the entries of another one over its own. -/
def extend (t other : Table α) : Table α :=
  t.insertAll other.entries

end Table

end AutomationScript
