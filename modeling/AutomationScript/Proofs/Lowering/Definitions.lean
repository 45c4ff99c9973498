import AutomationScript.Proofs.Lowering.Collecting
import AutomationScript.Proofs.Lowering.Entering

/-!
# Forms after definitions are expanded

Expanding the definitions of a program that was read leaves a program without definitions and
uses, and no definition is met where none can stand.
-/

namespace AutomationScript

namespace Definition

variable {f : Forms}
variable {definitions : Table Definition}

def Written (f : Forms) : Definition → Prop
  | .expr body => body.Written f
  | .block body => Composed (Stmt.Simple f) body

def AllWritten (f : Forms) (definitions : Table Definition) : Prop :=
  ∀ name definition, definitions.get? name = some definition → definition.Written f

/-! ## Collecting -/

theorem blockDepth_filter (program : List Stmt) (depth : Nat) :
    blockDepth depth (program.filter fun s => s.definition?.isNone) = blockDepth depth program := by
  induction program generalizing depth with
  | nil => rfl
  | cons s rest ih =>
    rw [List.filter_cons]
    cases s with
    | defineExpr name body tag => exact ih depth
    | defineBlock name body tag => exact ih depth
    | _ => exact (blockDepth_cons _ _ _).trans (congrArg _ (funext ih))

theorem simple_of_parsed {s : Stmt} (parsed : s.Parsed f) (undefined : s.definition? = none) :
    s.Simple f := by
  cases parsed with
  | defineExpr name value tag written => cases undefined
  | defineBlock name body tag composed => cases undefined
  | simple s isSimple => exact isSimple

theorem written_of_parsed {s : Stmt} (parsed : s.Parsed f) {word : Ident} {definition : Definition}
    (defined : s.definition? = some (word, definition)) :
    definition.Written f := by
  cases parsed with
  | defineExpr name value tag written =>
    cases defined
    exact written
  | defineBlock name body tag composed =>
    cases defined
    exact composed
  | simple s isSimple =>
    cases isSimple with
    | use name tag => cases defined
    | fits s fits =>
      cases s with
      | defineExpr name body tag => exact fits.elim
      | defineBlock name body tag => exact fits.elim
      | _ => cases defined

/-- The statements that are no definitions keep the block depth, since definitions have no part
in it. -/
theorem yields_collect (registry : Registry) {program : List Stmt}
    (composed : Composed (Stmt.Parsed f) program) :
    Yields (fun collected => AllWritten f collected.definitions ∧
        Composed (Stmt.Simple f) collected.statements)
      (collect registry .empty program) := by
  cases ran : collect registry .empty program with
  | error failure =>
    obtain ⟨error, loc, rfl, _⟩ := collect_eq_error ran
    exact True.intro
  | ok collected =>
    refine ⟨fun name definition found => ?_, fun depth => ?_, fun s member => ?_⟩
    · obtain ⟨s, member, word, defined, _⟩ := (get?_collect ran).mp found
      exact written_of_parsed (composed.each s member) defined
    · rw [statements_collect ran, blockDepth_filter]
      exact composed.balanced depth
    · obtain ⟨inProgram, undefined⟩ := (mem_collect ran).mp member
      exact simple_of_parsed (composed.each s inProgram) undefined

/-! ## Expanding -/

theorem becomes_expandExpr (allWritten : AllWritten f definitions)
    (fuel : Nat) (active : List String) {e : Expr} (written : e.Written f) :
    Becomes (Expr.Written f) (expandExpr definitions fuel active e) := by
  induction fuel using Nat.strongRecOn generalizing active e with
  | ind fuel ih =>
    rw [expandExpr_eq]
    refine (Revises.ofWritten id ?_ (fun written _ _ => written) ?_).becomes e written
    · intro e answer written answered
      cases e with
      | ident word loc =>
        cases named_of_nameRule answered with
        | misused _ => exact .of_refuse _ _
        | circular _ _ => exact .of_refuse _ _
        | entered found _ =>
          cases fuel with
          | zero => exact .of_refuse _ _
          | succ fewer =>
            have bodyWritten := allWritten word.name _ found
            exact (ih fewer (Nat.lt_succ_self fewer) _ bodyWritten).bind
              fun _ expandedWritten => expandedWritten
      | subscript base key loc =>
        cases answered
        exact written
      | _ => cases answered
    · intro base key loc _ unanswered
      cases unanswered

theorem yields_expandStmts (allWritten : AllWritten f definitions)
    (fuel : Nat) (active : List String)
    {statements : List Stmt} (composed : Composed (Stmt.Simple f) statements) :
    Yields (Composed (Stmt.Fits (Expr.Target f) (Expr.Written f)))
      (expandStmts definitions fuel active statements) := by
  induction fuel using Nat.strongRecOn generalizing active statements with
  | ind fuel ih =>
    rw [expandStmts_eq]
    refine composed.lowerEach fun s isSimple => ?_
    cases isSimple with
    | use name tag =>
      generalize asked : useRule _ _ _ _ _ = given
      cases used_of_useRule asked with
      | refused _ => exact Yields.of_refuse _ _
      | circular _ _ => exact Yields.of_refuse _ _
      | entered found _ =>
        cases fuel with
        | zero => exact Yields.of_refuse _ _
        | succ smaller =>
          refine (ih smaller (Nat.lt_succ_self smaller) _ (allWritten name.name _ found)).mono ?_
          exact fun part expanded => ⟨expanded.each, expanded.balanced⟩
    | fits s fits =>
      have revised := fits.revisePart (fun _ => becomes_unrevised)
        fun e written => becomes_expandExpr allWritten fuel active written
      cases s with
      | defineExpr name body tag => exact fits.elim
      | defineBlock name body tag => exact fits.elim
      | use name tag => exact fits.elim
      | _ => exact revised

theorem yields_lower
    (registry : Registry) {program : List Stmt} (composed : Composed (Stmt.Parsed f) program) :
    Yields (Composed (Stmt.Fits (Expr.Target f) (Expr.Written f))) (lower registry program) := by
  exact (yields_collect registry composed).bind fun collected ⟨allWritten, simple⟩ =>
    yields_expandStmts allWritten _ [] simple

end Definition

end AutomationScript
