import AutomationScript.Proofs.Document.Agreement
import AutomationScript.Proofs.Pipeline.Agreement
import AutomationScript.Proofs.Pipeline.Flat
import AutomationScript.Registry.Builtin

/-!
# Text for the runtime in the place of expressions

Text in braces can take the place of a value, of a condition or of an operand, and the program still
compiles (`exists_compileProgram_inlined`).  The exception is an operand that stands for a list,
since what is made of its elements is not checked for its type (`compileProgram_inlined_list`).
-/

namespace AutomationScript

/-- Parts may stand anywhere, and text may take the place of expressions. -/
def Slack.inlining : Slack where
  places _ _ := True
  lenient := True
  union _ _ := trivial
  anywhere _ _ _ := trivial

variable {registry : Registry}

/-- The expression does not stand for a list: it becomes none when its definitions and wildcards are
expanded and its lists resolved. -/
def Expr.StandsSingle (registry : Registry) (definitions : Table Definition) : Expr → Prop :=
  Definition.GrantedLater (Wildcard.GrantedLater registry (Lists.Single registry)) definitions

/-- The second program is the first one, with text for the runtime in the place of any whole values,
conditions and conditions of blocks, and of any operands that do not stand for lists.  The places of
all parts may differ. -/
def Inlines (registry : Registry) (program program' : List Stmt) : Prop :=
  ∀ collected, Definition.collect registry .empty program = .ok collected →
    let single := Expr.StandsSingle registry collected.definitions
    List.Forall₂ (Stmt.Accords .inlining single (Definition.Corresponds .inlining single))
      program program'

theorem Slack.Agree.exists_of_ok {α β : Type} {slack : Slack} {post : α → β → Prop} {x : Lowering α}
    {x' : Lowering β} (agree : slack.Agree post x x') {a : α} (ran : x = .ok a) :
    ∃ b, x' = .ok b ∧ post a b := by
  subst ran
  cases x' with
  | ok b => exact ⟨b, rfl, agree⟩
  | error failure => exact agree.elim

theorem Inlines.matched {program program' : List Stmt} (inlines : Inlines registry program program')
    {lowered : List Stmt} (ran : lowerProgram registry program = .ok lowered) :
    Stage.definitions.Matched .inlining registry (fun _ _ => True) program program' := by
  obtain ⟨expanded, checkedRan, _⟩ := bind_eq_ok_iff.mp ran
  obtain ⟨_, expandedRan, _⟩ := bind_eq_ok_iff.mp checkedRan
  obtain ⟨collected, collectedRan, _⟩ := bind_eq_ok_iff.mp expandedRan
  intro definitions isCollected
  rw [isCollected collected collectedRan]
  exact inlines collected collectedRan

/-- A program that compiles still does so if text for the runtime takes the place of values,
conditions and operands. -/
theorem exists_compileProgram_inlined (noFamily : registry.family? evalName = none)
    {program program' : List Stmt} (inlines : Inlines registry program program')
    {document : Document} (compiled : compileProgram registry program = .ok document) :
    ∃ document', compileProgram registry program' = .ok document' := by
  obtain ⟨lowered, ran, emitted⟩ := compileProgram_eq_ok_iff.mp compiled
  have agree := agree_lowerProgram (fun _ => noFamily) (inlines.matched ran)
  obtain ⟨lowered', ran', matched⟩ := agree.exists_of_ok ran
  obtain ⟨document', emitted', _⟩ :=
    (agree_emit matched).exists_of_ok (congrArg Conditions.checked emitted)
  refine ⟨document', compileProgram_eq_ok_iff.mpr ⟨lowered', ran', ?_⟩⟩
  cases shown : emit lowered' with
  | ok found =>
      rw [shown] at emitted'
      cases emitted'
      rfl
  | error defect =>
      rw [shown] at emitted'
      cases emitted'

/-- A block under a defined condition, as `def Busy = Citizens > limit`, `if Busy then`,
`autoJobs = value if own`, `end`. -/
def busyBlock (limit value own : Expr) : List Stmt :=
  [.defineExpr ⟨"Busy", none⟩ (.compound .gt [.ident ⟨"Citizens", none⟩ none, limit] none)
      ⟨none, none⟩,
    .openBlock (.ident ⟨"Busy", none⟩ none) ⟨none, none⟩,
    .assign (.ident ⟨"autoJobs", none⟩ none) value (some own) ⟨none, none⟩,
    .closeBlock ⟨none, none⟩]

/-- Text for the runtime takes the place of an operand in a definition, of a value and of a
condition that is a list folded to one. -/
theorem exists_compileProgram_inlined_busyBlock :
    ∃ limit own text : Expr, ∃ document document', text.IsText ∧
      Inlines .builtin (busyBlock limit (.boolean true none) own) (busyBlock text text text) ∧
      compileProgram .builtin (busyBlock limit (.boolean true none) own) = .ok document ∧
      compileProgram .builtin (busyBlock text text text) = .ok document' := by
  let limit : Expr := .number (.finite false 5629499534213120 (-50)) none
  let text : Expr := .subscript ⟨evalName, none⟩ (.ident ⟨"t", none⟩ none) none
  let own : Expr := .compound .gt [.subscript ⟨"ResourceQuantity", none⟩
    (.list [.ident ⟨"Coal", none⟩ none, .ident ⟨"Iron", none⟩ none] (some .and) none) none, limit]
    none
  have isText : text.IsText := .written rfl
  have ran : (compileProgram .builtin (busyBlock limit (.boolean true none) own)).toOption.isSome =
      true := by
    decide +kernel
  obtain ⟨document, compiled⟩ : ∃ document,
      compileProgram .builtin (busyBlock limit (.boolean true none) own) = .ok document := by
    generalize compileProgram .builtin _ = result at ran
    cases result with
    | ok document => exact ⟨document, rfl⟩
    | error failure => cases ran
  have inlines : Inlines .builtin (busyBlock limit (.boolean true none) own)
      (busyBlock text text text) := by
    intro collected _
    have tags : Tag.Matches .inlining ⟨none, none⟩ ⟨none, none⟩ := .of_lenient trivial
    have word (name : String) : Ident.Matches .inlining ⟨name, none⟩ ⟨name, none⟩ := ⟨rfl, trivial⟩
    have single : limit.StandsSingle .builtin collected.definitions := by
      intro fuel active expanded expandedRan found foundRan resolved resolvedRan
      rw [Definition.expandExpr] at expandedRan
      cases expandedRan
      cases foundRan
      cases resolvedRan
      rfl
    refine .cons (.defineExpr ⟨word _, .expr (.ofCompound ?_ trivial)⟩) ?_
    · exact .cons (.atom (.ident (word _) trivial))
        (.cons (.swapped trivial ⟨single, isText⟩) .nil)
    refine .cons (.openBlock (.inl (.atom (.ident (word _) trivial))) tags) ?_
    refine .cons (.assign (.atom (.ident (word _) trivial)) (.inr ⟨trivial, isText⟩)
      (.some (.inr ⟨trivial, isText⟩)) tags) ?_
    exact .cons (.closeBlock tags) .nil
  obtain ⟨document', compiled'⟩ := exists_compileProgram_inlined (by decide +kernel) inlines compiled
  exact ⟨limit, own, text, document, document', isText, inlines, compiled, compiled'⟩

/-- Text for the runtime does not take the place of an operand that stands for a list: that a number
is compared with text is only found out if the other operand is one value. -/
theorem compileProgram_inlined_list :
    ∃ listed text : Expr, text.IsText ∧
      let program (operand : Expr) : List Stmt :=
        [.assign (.ident ⟨"autoJobs", none⟩ none) (.boolean true none)
          (some (.compound .gt [operand, .string "x" none] none)) ⟨none, none⟩]
      (compileProgram .builtin (program listed)).toOption.isSome ∧
        compileProgram .builtin (program text) =
          .error (.refused [⟨.semantic (.typeMismatch "number" "string"), none⟩]) := by
  let listed : Expr := .subscript ⟨"ResourceQuantity", none⟩
    (.list [.ident ⟨"Coal", none⟩ none, .ident ⟨"Iron", none⟩ none] (some .and) none) none
  let text : Expr := .subscript ⟨evalName, none⟩ (.ident ⟨"t", none⟩ none) none
  refine ⟨listed, text, .written rfl, ?_, ?_⟩
  · decide +kernel
  · decide +kernel

end AutomationScript
