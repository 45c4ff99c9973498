import AutomationScript.Proofs.Document.Rules

/-!
# Merging documents

The statements of one script after those of another add to its document what they make a document
of alone (`statements_merge`).
-/

namespace AutomationScript

open List

namespace Table

variable {α : Type}

theorem lookup_mapEntries (f : String → α → α) (entries : List (String × α)) (name : String) :
    (entries.map fun entry => (entry.1, f entry.1 entry.2)).lookup name =
      (entries.lookup name).map (f name) := by
  induction entries with
  | nil => rfl
  | cons entry rest ih =>
    rw [map_cons, lookup_cons, lookup_cons, ih]
    by_cases here : name = entry.1
    · simp [here]
    · have skipped : (name == entry.1) = false := beq_eq_false_iff_ne.mpr here
      rw [skipped]

/-- The entries of both tables.  Names of the first table keep their places, and names of the second
table only come after them; under a name of both, the entries are combined. -/
def merge (combine : α → α → α) (t other : Table α) : Table α where
  entries :=
    (t.entries.map fun entry =>
        (entry.1, ((other.get? entry.1).map (combine entry.2)).getD entry.2)) ++
      other.entries.filter fun entry => !t.contains entry.1
  nodup := by
    rw [map_append, map_map]
    refine nodup_append.mpr ⟨t.nodup, ?_, ?_⟩
    · exact other.nodup.sublist (filter_sublist.map Prod.fst)
    · intro name inFirst second inSecond same
      obtain ⟨entry, member, rfl⟩ := mem_map.mp inSecond
      have absent := (mem_filter.mp member).2
      rw [contains_eq_isSome_get?, Bool.not_eq_true', ← Bool.not_eq_true, isSome_get?_iff] at absent
      exact absent (same ▸ inFirst)

variable (combine : α → α → α) (t other : Table α)

theorem keys_merge :
    (t.merge combine other).keys = t.keys ++ other.keys.filter fun name => !t.contains name := by
  rw [keys, merge, map_append, map_map, keys, keys, filter_map]
  rfl

theorem mem_keys_merge (name : String) :
    name ∈ (t.merge combine other).keys ↔ name ∈ t.keys ∨ name ∈ other.keys := by
  rw [keys_merge, mem_append, mem_filter]
  by_cases inFirst : name ∈ t.keys
  · simp [inFirst]
  · simp [inFirst, contains]

theorem get?_merge (name : String) :
    (t.merge combine other).get? name = Option.merge combine (t.get? name) (other.get? name) := by
  have mapped := lookup_mapEntries
    (fun key value => ((other.get? key).map (combine value)).getD value) t.entries name
  have filtered := lookup_filterEntries (fun key => !t.contains key) other.entries name
  rw [get?, merge, lookup_append, mapped, filtered, contains_eq_isSome_get?, get?, get?]
  cases t.entries.lookup name with
  | some value => cases other.entries.lookup name <;> rfl
  | none => cases other.entries.lookup name <;> rfl

theorem merge_empty : t.merge combine .empty = t := by
  refine ext_entries ?_
  simp [merge, empty, get?]

theorem merge_insert (name : String) (value : α) :
    t.merge combine (other.insert name value) =
      (t.merge combine other).insert name (((t.get? name).map (combine · value)).getD value) := by
  refine ext_get? ?_ fun tested => ?_
  · rw [keys_insert, keys_merge, keys_insert]
    by_cases inSecond : name ∈ other.keys
    · rw [if_pos inSecond, if_pos ((mem_keys_merge combine t other name).mpr (.inr inSecond)),
        keys_merge]
    · rw [if_neg inSecond, filter_append]
      by_cases inFirst : name ∈ t.keys
      · rw [if_pos ((mem_keys_merge combine t other name).mpr (.inl inFirst))]
        simp [contains, inFirst, keys_merge]
      · have absent : name ∉ (t.merge combine other).keys := by
          rw [mem_keys_merge]
          rintro (found | found)
          · exact inFirst found
          · exact inSecond found
        rw [if_neg absent]
        simp [contains, inFirst, keys_merge]
  · rw [get?_merge, get?_insert, get?_insert, get?_merge]
    by_cases here : tested = name
    · rw [if_pos here, if_pos here, here]
      cases t.get? name <;> rfl
    · rw [if_neg here, if_neg here]

end Table

/-! ## Documents -/

/-- The trigger numbered `offset` places on. -/
def Trigger.shift (offset : Nat) (t : Trigger) : Trigger :=
  { t with seq := t.seq + offset, priority := t.priority + offset }

namespace Document

/-- The first document with the second one after it. -/
def merge (first second : Document) : Document where
  settings := first.settings.merge (fun _ new => new) second.settings
  overrides := first.overrides.merge (· ++ ·) second.overrides
  triggers := first.triggers ++ second.triggers.map (Trigger.shift first.triggers.length)

variable (d e : Document)

theorem merge_empty : d.merge empty = d := by
  simp [merge, empty, Table.merge_empty]

theorem merge_setValue (name : String) (value : Constant) :
    d.merge (e.setValue name value) = (d.merge e).setValue name value := by
  have settings := Table.merge_insert (fun _ new => new) d.settings e.settings name value
  have same : ((d.settings.get? name).map fun _ => value).getD value = value := by
    cases d.settings.get? name <;> rfl
  rw [same] at settings
  simp [merge, setValue, settings]

theorem merge_addRule (name : String) (rule : Rule) :
    d.merge (e.addRule name rule) = (d.merge e).addRule name rule := by
  have overrides := Table.merge_insert (· ++ ·) d.overrides e.overrides name
    ((e.overrides.get? name).getD [] ++ [rule])
  have same : ((d.overrides.get? name).map
        (· ++ ((e.overrides.get? name).getD [] ++ [rule]))).getD
          ((e.overrides.get? name).getD [] ++ [rule]) =
      ((d.overrides.merge (· ++ ·) e.overrides).get? name).getD [] ++ [rule] := by
    rw [Table.get?_merge]
    cases d.overrides.get? name <;> cases e.overrides.get? name <;> simp
  rw [same] at overrides
  simp [merge, addRule, overrides]

theorem merge_addTrigger {trigger : Nat → Trigger}
    (shifts : ∀ seq offset, trigger (seq + offset) = (trigger seq).shift offset) :
    d.merge (e.addTrigger trigger) = (d.merge e).addTrigger trigger := by
  simp [merge, addTrigger, ← shifts, Nat.add_comm]

end Document

namespace Emit

variable {e e' : Document}

theorem assignment_merge {name : String} {value : Expr} {condition : Option Expr}
    (emitted : assignment e name value condition = .ok e') (d : Document) :
    assignment (d.merge e) name value condition = .ok (d.merge e') := by
  cases condition with
  | some condition =>
    rw [assignment_conditional] at emitted ⊢
    obtain ⟨rule, ruled, rfl⟩ := bind_pure_eq_ok_iff.mp emitted
    exact bind_pure_eq_ok_iff.mpr ⟨rule, ruled, (d.merge_addRule e name rule).symm⟩
  | none =>
    cases value with
    | eval text loc =>
      cases emitted
      rw [assignment, Document.merge_addRule]
    | _ =>
      obtain ⟨ret, fixed, rfl⟩ := bind_pure_eq_ok_iff.mp emitted
      exact bind_pure_eq_ok_iff.mpr ⟨ret, fixed, (d.merge_setValue e name ret).symm⟩

/-- A statement adds the same to a document wherever it comes. -/
theorem statement_merge {s : Stmt} (emitted : statement e s = .ok e') (d : Document) :
    statement (d.merge e) s = .ok (d.merge e') := by
  rcases statement_cases emitted with
    ⟨target, value, condition, tag, name, rfl, named, emitted⟩ |
    ⟨condition, action, tag, rfl, emitted⟩
  · rw [statement, named]
    exact assignment_merge emitted d
  · obtain ⟨requirementCount, required, continued⟩ := bind_eq_ok_iff.mp emitted
    obtain ⟨actionCount, acted, rfl⟩ := bind_pure_eq_ok_iff.mp continued
    rw [Document.merge_addTrigger d e fun _ _ => rfl]
    exact bind_eq_ok_iff.mpr
      ⟨requirementCount, required, bind_pure_eq_ok_iff.mpr ⟨actionCount, acted, rfl⟩⟩

theorem statements_merge {program : List Stmt} (emitted : statements e program = .ok e')
    (d : Document) : statements (d.merge e) program = .ok (d.merge e') := by
  induction program generalizing e with
  | nil =>
    cases emitted
    rfl
  | cons s rest ih =>
    obtain ⟨middle, first, others⟩ := bind_eq_ok_iff.mp emitted
    exact bind_eq_ok_iff.mpr ⟨d.merge middle, statement_merge first d, ih others⟩

end Emit

/-- The document of two lowered programs, one after the other, is their documents merged. -/
theorem emit_append {front back : List Stmt} {first second : Document}
    (emitted : emit front = .ok first) (emittedMore : emit back = .ok second) :
    emit (front ++ back) = .ok (first.merge second) := by
  have more := Emit.statements_merge emittedMore first
  rw [Document.merge_empty] at more
  rw [emit, Emit.statements_append]
  exact bind_eq_ok_iff.mpr ⟨first, emitted, more⟩

end AutomationScript
