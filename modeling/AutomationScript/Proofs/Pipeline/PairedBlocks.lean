import AutomationScript.Proofs.Grammar.Nested
import AutomationScript.Proofs.Lowering.Definitions

/-!
# Blocks come in pairs

A broken statement is dropped with all its marks, so the marks of a script come in pairs even if it
has errors.  Expanding the definitions keeps them in pairs (`paired_parse`).
-/

namespace AutomationScript

/-! ## Counting marks -/

def Stmt.isOpening : Stmt → Bool
  | .openBlock _ _ => true
  | _ => false

def Stmt.isClosing : Stmt → Bool
  | .closeBlock _ => true
  | _ => false

/-- At no point are more blocks closed than were opened, and in the end as many are. -/
def Paired (program : List Stmt) : Prop :=
  (∀ front, front <+: program → front.countP Stmt.isClosing ≤ front.countP Stmt.isOpening) ∧
    program.countP Stmt.isClosing = program.countP Stmt.isOpening

theorem count_of_blockDepth {depth after : Nat} {program : List Stmt}
    (counted : blockDepth depth program = some after) :
    after + program.countP Stmt.isClosing = depth + program.countP Stmt.isOpening := by
  induction program generalizing depth with
  | nil =>
    cases counted
    rfl
  | cons s rest ih =>
    rw [blockDepth_cons] at counted
    obtain ⟨middle, stepped, counted⟩ := Option.bind_eq_some_iff.mp counted
    have restCounted := ih counted
    rw [List.countP_cons, List.countP_cons]
    cases s with
    | openBlock condition tag =>
      cases stepped
      simp only [Stmt.isClosing, Stmt.isOpening, Bool.false_eq_true, if_true, if_false]
      omega
    | closeBlock tag =>
      cases depth with
      | zero => cases stepped
      | succ outer =>
        cases stepped
        simp only [Stmt.isClosing, Stmt.isOpening, Bool.false_eq_true, if_true, if_false]
        omega
    | _ =>
      cases stepped
      exact restCounted

theorem Balanced.paired {program : List Stmt} (balanced : Balanced program) : Paired program := by
  refine ⟨?_, by simpa using count_of_blockDepth (balanced 0)⟩
  rintro front ⟨back, rfl⟩
  have counted := balanced 0
  rw [blockDepth_append] at counted
  obtain ⟨open_, frontCounted, -⟩ := Option.bind_eq_some_iff.mp counted
  have := count_of_blockDepth frontCounted
  omega

/-! ## Statements in their places -/

namespace Stmt

/-- A statement that may stand inside a block. -/
def Inner : Stmt → Prop
  | .trigger _ actions _ => actions ≠ []
  | .defineExpr _ _ _ | .defineBlock _ _ _ => False
  | _ => True

/-- A statement that may stand here: a definition at the top only. -/
def Stands (topLevel : Bool) : Stmt → Prop
  | .defineExpr _ _ _ => topLevel = true
  | .defineBlock _ body _ => topLevel = true ∧ Composed Inner body
  | s => s.Inner

theorem Inner.stands {s : Stmt} (inner : s.Inner) (topLevel : Bool) : s.Stands topLevel := by
  cases s with
  | defineExpr name body tag => exact inner.elim
  | defineBlock name body tag => exact inner.elim
  | _ => exact inner

theorem Stands.inner {s : Stmt} (stands : s.Stands false) : s.Inner := by
  cases s with
  | defineExpr name body tag => cases stands
  | defineBlock name body tag => cases stands.1
  | _ => exact stands

theorem Inner.definition?_eq_none {s : Stmt} (inner : s.Inner) : s.definition? = none := by
  cases s with
  | defineExpr name body tag => exact inner.elim
  | defineBlock name body tag => exact inner.elim
  | _ => rfl

variable {topLevel : Bool} {outer : Location} {statements : List Stmt}

theorem Nest.composed (nest : Nest topLevel outer statements) :
    Composed (Stands topLevel) statements := by
  induction nest with
  | nil => exact .nil
  | append _ _ first rest => exact first.append rest
  | assign _ _ _ _ => exact .singleton True.intro fun _ => rfl
  | trigger _ _ some _ => exact .singleton some fun _ => rfl
  | use name _ _ => exact .singleton True.intro fun _ => rfl
  | defineExpr name _ _ _ => exact .singleton rfl fun _ => rfl
  | defineBlock name _ _ _ inBody =>
    refine .singleton ⟨rfl, inBody.balanced, fun s member => ?_⟩ fun _ => rfl
    exact (inBody.each s member).inner
  | block _ _ _ _ inBody =>
    refine .block True.intro True.intro (fun depth => inBody.balanced _) fun s member => ?_
    exact (inBody.each s member).inner.stands _
  | @blockElse _ _ _ _ _ _ body other _ _ _ _ _ _ inBody inOther =>
    rw [List.cons_append]
    refine .block True.intro True.intro (fun depth => ?_) fun s member => ?_
    · rw [blockDepth_append, inBody.balanced (depth + 1)]
      exact inOther.balanced (depth + 1)
    · simp only [List.mem_append, List.mem_cons] at member
      rcases member with inBlock | rfl | rfl | inBlock
      · exact (inBody.each s inBlock).inner.stands _
      · exact True.intro
      · exact True.intro
      · exact (inOther.each s inBlock).inner.stands _

/-- No block is open before a definition. -/
theorem Nest.balanced_front (nest : Nest topLevel outer statements) {front back : List Stmt}
    {s : Stmt} (whole : statements = front ++ s :: back) (defines : s.definition? ≠ none) :
    Balanced front := by
  have single : ∀ {t front back}, [t] = front ++ s :: back → Balanced front := by
    intro t front back whole
    cases front with
    | nil => exact .nil
    | cons first others => simp at whole
  have inBlock : ∀ {outer statements front back}, Nest false outer statements →
      statements = front ++ s :: back → Balanced front := by
    rintro _ _ front back nest rfl
    have inner := (nest.composed.each s (by simp)).inner
    exact absurd inner.definition?_eq_none defines
  induction nest generalizing front back with
  | nil => simp at whole
  | @append _ _ before rest first _ ihFirst ihRest =>
    rcases List.append_eq_append_iff.mp whole with ⟨more, rfl, isRest⟩ | ⟨more, rfl, isBack⟩
    · exact first.composed.balanced.append (ihRest isRest)
    · cases more with
      | nil => simpa using first.composed.balanced
      | cons _ others =>
        cases isBack
        exact ihFirst rfl
  | assign _ _ _ _ => exact single whole
  | trigger _ _ _ _ => exact single whole
  | use name _ _ => exact single whole
  | defineExpr name _ _ _ => exact single whole
  | defineBlock name _ _ _ _ => exact single whole
  | block holds inCondition inBody closes =>
    exact inBlock (.block holds inCondition inBody closes) whole
  | blockElse holds inCondition inBody turns inOther closes =>
    exact inBlock (.blockElse holds inCondition inBody turns inOther closes) whole

end Stmt

/-! ## What definitions are expanded to -/

namespace Definition

theorem balanced_expandStmts {definitions : Table Definition}
    (bodies : ∀ name body, definitions.get? name = some (.block body) → Balanced body)
    {fuel : Nat} {active : List String} {statements expanded : List Stmt}
    (balanced : Balanced statements)
    (ran : expandStmts definitions fuel active statements = .ok expanded) : Balanced expanded := by
  induction fuel using Nat.strongRecOn generalizing active statements expanded with
  | ind fuel ih =>
    rw [expandStmts_eq] at ran
    intro depth
    rw [blockDepth_lowerEach (fun s _ part stepped depth => ?_) ran, balanced depth]
    cases s with
    | use word tag =>
      generalize asked : useRule _ _ _ _ _ = given at stepped
      cases used_of_useRule asked with
      | refused _ => cases stepped
      | circular _ _ => cases stepped
      | entered found _ =>
        cases fuel with
        | zero => cases stepped
        | succ smaller => exact ih smaller (Nat.lt_succ_self smaller) (bodies _ _ found) stepped depth
    | defineExpr name body tag => cases stepped
    | defineBlock name body tag => cases stepped
    | _ =>
      obtain ⟨revised, revisedRan, rfl⟩ := bind_pure_eq_ok_iff.mp stepped
      exact depthAfter_revise revisedRan depth

theorem balanced_lower {registry : Registry} {program lowered : List Stmt}
    (composed : Composed (Stmt.Stands true) program) (ran : lower registry program = .ok lowered) :
    Balanced lowered := by
  obtain ⟨collected, collectedRan, ran⟩ := bind_eq_ok_iff.mp ran
  refine balanced_expandStmts (fun name body found => ?_) (fun depth => ?_) ran
  · obtain ⟨s, member, word, defined, _⟩ := (get?_collect collectedRan).mp found
    have stands := composed.each s member
    cases s <;> cases defined
    exact stands.2.balanced
  · rw [statements_collect collectedRan, blockDepth_filter]
    exact composed.balanced depth

end Definition

/-- Whatever the source, the blocks of what is read come in pairs, and still do once the definitions
are expanded.  A definition stands where no block is open; in its body the blocks come in pairs and
nothing is defined; and every trigger has an action. -/
theorem paired_parse (source : String) :
    Paired (parse source).1 ∧
    (∀ front s back, (parse source).1 = front ++ s :: back → s.definition? ≠ none →
      front.countP Stmt.isOpening = front.countP Stmt.isClosing) ∧
    (∀ name body tag, .defineBlock name body tag ∈ (parse source).1 →
      Paired body ∧ ∀ s ∈ body, s.definition? = none) ∧
    (∀ condition actions tag, .trigger condition actions tag ∈ (parse source).1 ∨
      (∃ name body tag', .defineBlock name body tag' ∈ (parse source).1 ∧
        .trigger condition actions tag ∈ body) → actions ≠ []) ∧
    ∀ registry lowered, Definition.lower registry (parse source).1 = .ok lowered →
      Paired lowered := by
  obtain ⟨outer, nest⟩ : ∃ outer, Stmt.Nest true outer (parse source).1 := by
    unfold parse
    cases read : tokenize source with
    | error errors => exact ⟨⟨⟨1, 1⟩, ⟨1, 1⟩⟩, .nil _ _⟩
    | ok lexemes =>
      obtain ⟨stop, nest⟩ := exists_nest_parseTokens ((layout_tokenize read).tiling.ahead [] rfl)
      exact ⟨_, nest⟩
  have composed := nest.composed
  refine ⟨composed.balanced.paired, fun front s back whole defines => ?_,
    fun name body tag member => ?_, ?_,
    fun registry lowered ran => (Definition.balanced_lower composed ran).paired⟩
  · exact (nest.balanced_front whole defines).paired.2.symm
  · have inside := (composed.each _ member).2
    exact ⟨inside.balanced.paired, fun s inBody => (inside.each s inBody).definition?_eq_none⟩
  · rintro condition actions tag (member | ⟨name, body, tag', member, inBody⟩)
    · exact composed.each _ member
    · exact (composed.each _ member).2.each _ inBody

end AutomationScript
