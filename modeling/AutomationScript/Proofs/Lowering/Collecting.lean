import AutomationScript.Lowering.Definitions
import AutomationScript.Proofs.Lowering.Outcome
import AutomationScript.Proofs.Table

/-!
# Collecting definitions

What `collect` gives for a program, at once: the definitions follow those that were there, and the
other statements are left as they stand.  It fails only if a name is taken.
-/

namespace AutomationScript

open List

variable {registry : Registry} {definitions : Table Definition} {s : Stmt} {name : String}
variable {program front back : List Stmt}

/-- What a statement defines, and as what. -/
def Stmt.definition? : Stmt → Option (Ident × Definition)
  | .defineExpr name body _ => some (name, .expr body)
  | .defineBlock name body _ => some (name, .block body)
  | _ => none

/-- The names that a program defines. -/
def definedNames (program : List Stmt) : List String :=
  program.filterMap fun s => s.definition?.map fun defined => defined.1.name

namespace Definition

/-- The program has this definition of the name. -/
def Defines (program : List Stmt) (name : String) (definition : Definition) : Prop :=
  ∃ s ∈ program, ∃ word, s.definition? = some (word, definition) ∧ word.name = name

def definedEntries (program : List Stmt) : List (String × Definition) :=
  program.filterMap fun s => s.definition?.map fun defined => (defined.1.name, defined.2)

theorem mem_definedEntries {definition : Definition} :
    (name, definition) ∈ definedEntries program ↔ Defines program name definition := by
  rw [definedEntries, mem_filterMap, Defines]
  refine exists_congr fun s => and_congr_right fun _ => ?_
  rw [Option.map_eq_some_iff]
  constructor
  · rintro ⟨⟨word, _⟩, defined, same⟩
    cases same
    exact ⟨word, defined, rfl⟩
  · rintro ⟨word, defined, rfl⟩
    exact ⟨_, defined, rfl⟩

theorem map_fst_definedEntries (program : List Stmt) :
    (definedEntries program).map Prod.fst = definedNames program := by
  rw [definedEntries, definedNames, map_filterMap]
  congr 1
  funext s
  cases s.definition? <;> rfl

theorem mem_definedNames :
    name ∈ definedNames program ↔ ∃ definition, Defines program name definition := by
  simp only [← map_fst_definedEntries, mem_map, Prod.exists, exists_and_right, exists_eq_right,
    mem_definedEntries]

theorem collect_cons (definitions : Table Definition) (s : Stmt) (rest : List Stmt) :
    collect registry definitions (s :: rest) =
      match s.definition? with
      | some (name, body) => do collect registry (← enter registry definitions name body) rest
      | none => do
        let collected ← collect registry definitions rest
        return { collected with statements := s :: collected.statements } := by
  cases s <;> rfl

theorem enter_eq_ok_iff {entered : Table Definition} {name : Ident} {body : Definition} :
    enter registry definitions name body = .ok entered ↔
      registry.isReserved name.name = false ∧
        entered.entries = definitions.entries ++ [(name.name, body)] := by
  rw [enter, Table.contains_eq_isSome_get?]
  cases known : definitions.get? name.name with
  | some old =>
    simp only [Option.isSome_some, if_true]
    refine ⟨fun ran => (by cases ran), fun ⟨_, entries⟩ => ?_⟩
    have distinct := entered.nodup
    rw [entries, map_append, nodup_append] at distinct
    have taken := Table.isSome_get?_iff.mp (Option.isSome_of_mem known)
    exact absurd rfl (distinct.2.2 _ taken _ mem_cons_self)
  | none =>
    have inserted := Table.entries_insert (Table.get?_eq_none_iff.mp known) body
    cases reserved : registry.isReserved name.name with
    | true => simp [refuse]
    | false =>
      simp only [Option.isSome_none, Bool.false_eq_true, if_false, Except.ok.injEq, true_and]
      exact ⟨fun same => same ▸ inserted,
        fun entries => Table.ext_entries (inserted.trans entries.symm)⟩

theorem collect_eq_ok_iff {collected : Collected} :
    collect registry definitions program = .ok collected ↔
      collected.definitions.entries = definitions.entries ++ definedEntries program ∧
        (∀ name ∈ definedNames program, registry.isReserved name = false) ∧
        collected.statements = program.filter fun s => s.definition?.isNone := by
  induction program generalizing definitions collected with
  | nil =>
    rw [collect]
    constructor
    · rintro ⟨⟩
      exact ⟨(append_nil _).symm, forall_mem_nil _, rfl⟩
    · rintro ⟨entries, _, kept⟩
      obtain ⟨table, statements⟩ := collected
      cases kept
      cases Table.ext_entries (entries.trans (append_nil _))
      rfl
  | cons s rest ih =>
    rw [collect_cons]
    cases defined : s.definition? with
    | some found =>
      obtain ⟨word, body⟩ := found
      simp only [definedEntries, definedNames, filterMap_cons, filter_cons, defined,
        Option.map_some, Option.isNone_some, Bool.false_eq_true, if_false, forall_mem_cons,
        bind_eq_ok_iff, enter_eq_ok_iff] at ih ⊢
      constructor
      · rintro ⟨entered, ⟨unreserved, entries⟩, restRan⟩
        obtain ⟨more, others, kept⟩ := ih.mp restRan
        rw [entries, append_assoc] at more
        exact ⟨more, ⟨unreserved, others⟩, kept⟩
      · rintro ⟨entries, ⟨unreserved, others⟩, kept⟩
        rw [← singleton_append, ← append_assoc] at entries
        have distinct := collected.definitions.nodup
        rw [entries, map_append] at distinct
        exact ⟨⟨_, (nodup_append.mp distinct).1⟩, ⟨unreserved, rfl⟩,
          ih.mpr ⟨entries, others, kept⟩⟩
    | none =>
      simp only [definedEntries, definedNames, filterMap_cons, filter_cons, defined,
        Option.map_none, Option.isNone_none, if_true, bind_pure_eq_ok_iff] at ih ⊢
      constructor
      · rintro ⟨more, restRan, rfl⟩
        obtain ⟨entries, others, kept⟩ := ih.mp restRan
        exact ⟨entries, others, congrArg _ kept⟩
      · rintro ⟨entries, others, kept⟩
        refine ⟨⟨collected.definitions, rest.filter fun s => s.definition?.isNone⟩,
          ih.mpr ⟨entries, others, rfl⟩, ?_⟩
        rw [← kept]

theorem collect_of_definition?_eq_none (plain : ∀ s ∈ program, s.definition? = none)
    (definitions : Table Definition) :
    collect registry definitions program = .ok ⟨definitions, program⟩ := by
  have nothing : definedEntries program = [] :=
    filterMap_eq_nil_iff.mpr fun s member => by rw [plain s member]; rfl
  refine collect_eq_ok_iff.mpr ⟨?_, ?_, ?_⟩
  · rw [nothing, append_nil]
  · rw [← map_fst_definedEntries, nothing]
    exact forall_mem_nil _
  · exact (filter_eq_self.mpr fun s member => by rw [plain s member]; rfl).symm

theorem exists_collect (distinct : (definedNames program).Nodup)
    (unreserved : ∀ name ∈ definedNames program, registry.isReserved name = false) :
    ∃ collected, collect registry .empty program = .ok collected :=
  ⟨⟨⟨definedEntries program, map_fst_definedEntries program ▸ distinct⟩, _⟩,
    collect_eq_ok_iff.mpr ⟨rfl, unreserved, rfl⟩⟩

theorem collect_append (definitions : Table Definition) (front back : List Stmt) :
    collect registry definitions (front ++ back) = (do
      let first ← collect registry definitions front
      let second ← collect registry first.definitions back
      return ⟨second.definitions, first.statements ++ second.statements⟩) := by
  induction front generalizing definitions with
  | nil =>
    rw [nil_append, collect]
    dsimp only [bind, Except.bind, pure, Except.pure]
    cases collect registry definitions back <;> rfl
  | cons s rest ih =>
    rw [cons_append, collect_cons, collect_cons]
    cases s.definition? with
    | some found =>
      dsimp only
      cases enter registry definitions found.1 found.2 with
      | error failure => rfl
      | ok entered => exact ih entered
    | none =>
      dsimp only
      rw [ih]
      cases collect registry definitions rest with
      | error failure => rfl
      | ok first =>
        dsimp only [bind, Except.bind, pure, Except.pure]
        cases collect registry first.definitions back <;> rfl

/-- A program is refused for its definitions alone if a name is taken, never for a circle. -/
theorem collect_eq_error {failure : Failure}
    (failed : collect registry definitions program = .error failure) :
    ∃ error loc, failure = .refused ⟨.semantic error, loc⟩ ∧ ∀ name, error ≠ .circularUse name := by
  induction program generalizing definitions with
  | nil => cases failed
  | cons s rest ih =>
    rw [collect_cons] at failed
    cases defined : s.definition? with
    | some found =>
      obtain ⟨word, body⟩ := found
      rw [defined] at failed
      rcases bind_eq_error_iff.mp failed with inEnter | ⟨_, _, inRest⟩
      · unfold enter at inEnter
        split at inEnter
        · cases inEnter
          exact ⟨_, _, rfl, fun _ same => by cases same⟩
        · split at inEnter
          · cases inEnter
            exact ⟨_, _, rfl, fun _ same => by cases same⟩
          · cases inEnter
      · exact ih inRest
    | none =>
      rw [defined] at failed
      rcases bind_eq_error_iff.mp failed with inRest | ⟨_, _, impossible⟩
      · exact ih inRest
      · cases impossible

section Collected

variable {collected : Collected} (ran : collect registry .empty program = .ok collected)

include ran

theorem get?_collect {definition : Definition} :
    collected.definitions.get? name = some definition ↔ Defines program name definition := by
  rw [Table.get?_eq_some_iff, (collect_eq_ok_iff.mp ran).1]
  exact mem_definedEntries

theorem statements_collect : collected.statements = program.filter fun s => s.definition?.isNone :=
  (collect_eq_ok_iff.mp ran).2.2

theorem mem_collect : s ∈ collected.statements ↔ s ∈ program ∧ s.definition? = none := by
  rw [statements_collect ran, mem_filter, Option.isNone_iff_eq_none]

end Collected

end Definition

end AutomationScript
