import AutomationScript.Proofs.Lowering.Circles

/-!
# The order of definitions

The order of definitions makes no difference, since expanding only looks definitions up by name.
-/

namespace AutomationScript

namespace Definition

variable {definitions definitions' : Table Definition}

/-! ## Tables with the same definitions -/

theorem expandExpr_congr (same : ∀ name, definitions.get? name = definitions'.get? name)
    (fuel : Nat) (active : List String) :
    expandExpr definitions fuel active = expandExpr definitions' fuel active := by
  induction fuel generalizing active with
  | zero =>
    funext e
    simp only [expandExpr, same]
  | succ fuel ih =>
    funext e
    rw [expandExpr, expandExpr]
    simp only [same, ih]

theorem expandStmts_congr (same : ∀ name, definitions.get? name = definitions'.get? name)
    (fuel : Nat) (active : List String) :
    expandStmts definitions fuel active = expandStmts definitions' fuel active := by
  induction fuel generalizing active with
  | zero =>
    funext statements
    simp only [expandStmts, same, expandExpr_congr same]
  | succ fuel ih =>
    funext statements
    rw [expandStmts, expandStmts]
    simp only [same, expandExpr_congr same, ih]

/-! ## Programs -/

theorem definedEntries_filter (program : List Stmt) :
    definedEntries (program.filter fun s => s.definition?.isSome) = definedEntries program := by
  rw [definedEntries, definedEntries, List.filterMap_filter]
  congr 1
  funext s
  cases s.definition? <;> rfl

/-- Two programs with the same statements and the same definitions, wherever these stand and in
whatever order, expand to the same program or are refused for the same reason at the same place. -/
theorem lower_eq_of_perm
    (registry : Registry) {program program' : List Stmt}
    (sameStatements : program.filter (fun s => s.definition?.isNone) =
      program'.filter fun s => s.definition?.isNone)
    (sameDefinitions : (program.filter fun s => s.definition?.isSome).Perm
      (program'.filter fun s => s.definition?.isSome))
    (distinct : (definedNames program).Nodup)
    (unreserved : ∀ name ∈ definedNames program, registry.isReserved name = false) :
    lower registry program = lower registry program' := by
  have entries : (definedEntries program).Perm (definedEntries program') := by
    rw [← definedEntries_filter program, ← definedEntries_filter program']
    exact sameDefinitions.filterMap _
  have names : (definedNames program).Perm (definedNames program') := by
    rw [← map_fst_definedEntries, ← map_fst_definedEntries]
    exact entries.map _
  obtain ⟨collected, ran⟩ := exists_collect distinct unreserved
  obtain ⟨collected', ran'⟩ := exists_collect (names.nodup_iff.mp distinct)
    fun name member => unreserved name (names.mem_iff.mpr member)
  have same : ∀ name, collected.definitions.get? name = collected'.definitions.get? name := by
    intro name
    refine Option.ext fun definition => ?_
    rw [get?_collect ran, get?_collect ran', ← mem_definedEntries, ← mem_definedEntries,
      entries.mem_iff]
  have size : collected.definitions.size = collected'.definitions.size := by
    rw [Table.size, Table.size, (collect_eq_ok_iff.mp ran).1, (collect_eq_ok_iff.mp ran').1]
    exact (entries.append_left _).length_eq
  rw [lower, lower, ran, ran']
  change expandStmts _ collected.definitions.size [] _ = expandStmts _ collected'.definitions.size [] _
  rw [statements_collect ran, statements_collect ran', sameStatements, size, expandStmts_congr same]

/-- Definitions after the statement that uses them and before it, also those that are refused for
their circle. -/
theorem lower_eq_of_perm_reversed :
    lower .empty nestedDefinitions = lower .empty nestedDefinitions.reverse ∧
      lower .empty mutualDefinitions = lower .empty mutualDefinitions.reverse := by
  have reversed : ∀ program : List Stmt, (program.filter fun s => s.definition?.isSome).Perm
      (program.reverse.filter fun s => s.definition?.isSome) := fun program => by
    rw [List.filter_reverse]
    exact (List.reverse_perm _).symm
  exact ⟨lower_eq_of_perm .empty rfl (reversed _) (by decide) (by decide),
    lower_eq_of_perm .empty rfl (reversed _) (by decide) (by decide)⟩

end Definition

end AutomationScript
