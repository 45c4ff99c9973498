import AutomationScript.Proofs.Lowering.Collecting
import AutomationScript.Proofs.Lowering.Entering

/-!
# Expansion without a bound

`expandExpr` and `expandStmts` carry a bound on the definitions that can still be entered.  Without
it, an expansion is a finite tree of definitions inside definitions.  Every program has exactly one,
and `lower` finds it (`expansion_iff`).
-/

namespace AutomationScript

namespace Definition

variable {definitions : Table Definition} {active : List String}

/-! ## Expansions -/

/-- What becomes of one node of an expression, if `expand` says what becomes of the definition of a
name. -/
def exprRule (definitions : Table Definition) (active : List String)
    (expand : String → Expr → Lowering (Revised Expr)) : Expr → Option (Lowering (Revised Expr))
  | .ident word loc =>
    match definitions.get? word.name with
    | none => none
    | some (.block _) => some (refuse (.usedAsExpression word.name) loc)
    | some (.expr body) =>
      if active.contains word.name then
        some (refuse (.circularUse word.name) word.loc)
      else
        some do return .new (← expand word.name body).value
  | .subscript base key loc => some (pure (.kept (.subscript base key loc)))
  | _ => none

/-- The expression expands to `outcome` inside the definitions of the names in `active`. -/
inductive ExprExpansion (definitions : Table Definition) :
    (active : List String) → Expr → Lowering (Revised Expr) → Prop
  | intro {active : List String} {e : Expr} {outcome : Lowering (Revised Expr)}
      (expand : String → Expr → Lowering (Revised Expr))
      (inner : ∀ name body, e.Mentions name → definitions.get? name = some (.expr body) →
        name ∉ active → ExprExpansion definitions (name :: active) body (expand name body))
      (ends : e.revise (exprRule definitions active expand) = outcome) :
      ExprExpansion definitions active e outcome

/-- What becomes of a statement, if `expand` says what becomes of the definition of a name and
`value` what becomes of a value or condition. -/
def stmtRule (definitions : Table Definition) (active : List String)
    (expand : String → List Stmt → Lowering (List Stmt))
    (value : Expr → Lowering (Revised Expr)) : Stmt → Lowering (List Stmt)
  | .use word _ =>
    match definitions.get? word.name with
    | none => refuse (.unknownDefinition word.name) word.loc
    | some (.expr _) => refuse (.usedAsStatement word.name) word.loc
    | some (.block body) =>
      if active.contains word.name then
        refuse (.circularUse word.name) word.loc
      else
        expand word.name body
  | .defineExpr _ _ _ | .defineBlock _ _ _ => broken .nestedDefinition
  | s => do return [← s.revise unrevised value]

/-- The statements expand to `outcome` inside the definitions of the names in `active`. -/
inductive StmtsExpansion (definitions : Table Definition) :
    (active : List String) → List Stmt → Lowering (List Stmt) → Prop
  | intro {active : List String} {statements : List Stmt} {outcome : Lowering (List Stmt)}
      (expand : String → List Stmt → Lowering (List Stmt))
      (value : Expr → Lowering (Revised Expr))
      (inner : ∀ word tag body, .use word tag ∈ statements →
        definitions.get? word.name = some (.block body) → word.name ∉ active →
        StmtsExpansion definitions (word.name :: active) body (expand word.name body))
      (values : ∀ s ∈ statements, ∀ e, s.HasPart (· = e) →
        ExprExpansion definitions active e (value e))
      (ends : lowerEach (stmtRule definitions active expand value) statements = outcome) :
      StmtsExpansion definitions active statements outcome

/-- The program expands to `outcome`: its definitions are collected, and its other statements are
expanded with them. -/
def Expansion (registry : Registry) (program : List Stmt) (outcome : Lowering (List Stmt)) : Prop :=
  (∃ failure, collect registry .empty program = .error failure ∧ outcome = .error failure) ∨
    ∃ collected, collect registry .empty program = .ok collected ∧
      StmtsExpansion collected.definitions [] collected.statements outcome

/-! ## Names that can still be entered -/

def idle (definitions : Table Definition) (active : List String) : List String :=
  definitions.keys.filter fun name => !active.contains name

variable {name : String} {definition : Definition}

theorem mem_idle (found : definitions.get? name = some definition) (inactive : name ∉ active) :
    name ∈ idle definitions active := by
  have isKey : name ∈ definitions.keys := by
    have known := Option.isSome_of_mem found
    rwa [Table.isSome_get?_iff] at known
  simp [idle, isKey, inactive]

theorem length_idle_lt (found : definitions.get? name = some definition)
    (inactive : name ∉ active) :
    (idle definitions (name :: active)).length < (idle definitions active).length := by
  have fewer : idle definitions (name :: active) =
      (idle definitions active).filter fun other => other ≠ name := by
    rw [idle, idle, List.filter_filter]
    congr 1
    funext other
    by_cases same : other = name
    · simp [same]
    · simp [same]
  rw [fewer]
  apply List.length_filter_lt_length_iff_exists.mpr
  exact ⟨name, mem_idle found inactive, by simp⟩

/-! ## The bound is never reached -/

theorem exprRule_eq (expand : String → Expr → Lowering (Revised Expr)) :
    exprRule definitions active expand =
      nameRule definitions active fun word body => do
        return .new (← expand word.name body).value := by
  funext node
  cases node <;> rfl

theorem stmtRule_eq (expand : String → List Stmt → Lowering (List Stmt))
    (value : Expr → Lowering (Revised Expr)) :
    stmtRule definitions active expand value =
      useRule definitions active (fun word body => expand word.name body) value := by
  funext s
  cases s <;> rfl

variable {fuel : Nat}

theorem ne_zero_of_idle (enough : (idle definitions active).length ≤ fuel)
    (found : definitions.get? name = some definition) (inactive : name ∉ active) : fuel ≠ 0 := by
  have someIdle := List.length_pos_of_mem (mem_idle found inactive)
  omega

/-- With a bound that leaves room for every name that is not active, each step of the expansion is
the step without a bound. -/
theorem expandExpr_eq_revise (enough : (idle definitions active).length ≤ fuel) (e : Expr) :
    expandExpr definitions fuel active e =
      e.revise (exprRule definitions active fun name body =>
        expandExpr definitions (fuel - 1) (name :: active) body) := by
  rw [expandExpr_eq, exprRule_eq]
  refine revise_nameRule_congr e fun word body _ found inactive => ?_
  cases fuel with
  | zero => exact absurd rfl (ne_zero_of_idle enough found inactive)
  | succ fuel => rfl

theorem exprExpansion_expandExpr (enough : (idle definitions active).length ≤ fuel) (e : Expr) :
    ExprExpansion definitions active e (expandExpr definitions fuel active e) := by
  induction fuel generalizing active e with
  | zero =>
    refine .intro _ (fun name body _ found inactive => ?_) (expandExpr_eq_revise enough e).symm
    have someIdle := List.length_pos_of_mem (mem_idle found inactive)
    omega
  | succ fuel ih =>
    refine .intro _ (fun name body _ found inactive => ?_) (expandExpr_eq_revise enough e).symm
    have fewer := length_idle_lt found inactive
    exact ih (by omega) body

theorem expandStmts_eq_lowerEach (enough : (idle definitions active).length ≤ fuel)
    (statements : List Stmt) :
    expandStmts definitions fuel active statements =
      lowerEach (stmtRule definitions active
        (fun name body => expandStmts definitions (fuel - 1) (name :: active) body)
        (expandExpr definitions fuel active)) statements := by
  rw [expandStmts_eq, stmtRule_eq]
  refine lowerEach_congr fun s _ => useRule_congr (fun word tag body _ found inactive => ?_)
    fun _ _ => rfl
  cases fuel with
  | zero => exact absurd rfl (ne_zero_of_idle enough found inactive)
  | succ fuel => rfl

theorem stmtsExpansion_expandStmts (enough : (idle definitions active).length ≤ fuel)
    (statements : List Stmt) :
    StmtsExpansion definitions active statements
      (expandStmts definitions fuel active statements) := by
  induction fuel generalizing active statements with
  | zero =>
    refine .intro _ _ (fun word tag body _ found inactive => ?_)
      (fun _ _ e _ => exprExpansion_expandExpr enough e)
      (expandStmts_eq_lowerEach enough statements).symm
    have someIdle := List.length_pos_of_mem (mem_idle found inactive)
    omega
  | succ fuel ih =>
    refine .intro _ _ (fun word tag body _ found inactive => ?_)
      (fun _ _ e _ => exprExpansion_expandExpr enough e)
      (expandStmts_eq_lowerEach enough statements).symm
    have fewer := length_idle_lt found inactive
    exact ih (by omega) body

/-! ## There is only one expansion -/

theorem ExprExpansion.unique {e : Expr} {outcome other : Lowering (Revised Expr)}
    (expansion : ExprExpansion definitions active e outcome)
    (expansion' : ExprExpansion definitions active e other) : outcome = other := by
  induction expansion generalizing other with
  | intro expand inner ends ih =>
    cases expansion' with
    | intro expand' inner' ends' =>
      rw [← ends, ← ends', exprRule_eq, exprRule_eq]
      refine revise_nameRule_congr _ fun word body mentioned found inactive => ?_
      rw [ih word.name body mentioned found inactive (inner' word.name body mentioned found inactive)]

theorem StmtsExpansion.unique {statements : List Stmt} {outcome other : Lowering (List Stmt)}
    (expansion : StmtsExpansion definitions active statements outcome)
    (expansion' : StmtsExpansion definitions active statements other) : outcome = other := by
  induction expansion generalizing other with
  | intro expand value inner values ends ih =>
    cases expansion' with
    | intro expand' value' inner' values' ends' =>
      rw [← ends, ← ends']
      apply lowerEach_congr
      intro s member
      rw [stmtRule_eq, stmtRule_eq]
      apply useRule_congr
      · rintro word tag body rfl found inactive
        exact ih word tag body member found inactive (inner' word tag body member found inactive)
      · intro e isPart
        exact (values s member e isPart).unique (values' s member e isPart)

/-! ## Programs -/

/-- A program has exactly one expansion, and it is found. -/
theorem expansion_iff {registry : Registry} {program : List Stmt} {outcome : Lowering (List Stmt)} :
    Expansion registry program outcome ↔ outcome = lower registry program := by
  have opened : lower registry program = collect registry .empty program >>= fun collected =>
      expandStmts collected.definitions collected.definitions.size [] collected.statements := rfl
  rw [opened]
  cases ran : collect registry .empty program with
  | error failure =>
    constructor
    · rintro (⟨_, same, isOutcome⟩ | ⟨_, impossible, _⟩)
      · rw [isOutcome]
        exact ran.symm.trans same ▸ rfl
      · rw [ran] at impossible
        cases impossible
    · intro isOutcome
      exact .inl ⟨failure, ran, isOutcome⟩
  | ok collected =>
    have enough : (idle collected.definitions []).length ≤ collected.definitions.size := by
      have bounded := List.length_filter_le (fun name => !([] : List String).contains name)
        collected.definitions.keys
      simpa [Table.keys, Table.size, idle] using bounded
    have found := stmtsExpansion_expandStmts enough collected.statements
    constructor
    · rintro (⟨_, impossible, _⟩ | ⟨_, same, expansion⟩)
      · rw [ran] at impossible
        cases impossible
      · cases ran.symm.trans same
        exact expansion.unique found
    · rintro rfl
      exact .inr ⟨collected, ran, found⟩

end Definition

end AutomationScript
