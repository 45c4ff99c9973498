import AutomationScript.Proofs.Document.Agreement
import AutomationScript.Proofs.Lowering.Unlocated
import AutomationScript.Proofs.Pipeline.Agreement

/-!
# Compiling programs without their locations

The document of a program does not depend on where its parts stand (`compileProgram_unlocated`).
-/

namespace AutomationScript

namespace Stage

variable (registry : Registry) (stage : Stage) (program : List Stmt)

theorem matched_unlocated :
    stage.Matched .unlocated registry (fun s s' => s' = s.unlocated) program
      (program.map Stmt.unlocated) := by
  have accords {granted : Expr → Prop} {defines : Stmt → Stmt → Prop} (s : Stmt)
      (related : defines s s.unlocated) :
      s.Accords .unlocated granted defines s.unlocated :=
    s.matches_unlocated (fun e => .inl e.matches_unlocated) (fun e => .inl e.matches_unlocated)
      (fun e => .inl e.matches_unlocated) related
  cases stage with
  | definitions =>
    refine fun definitions _ => forall₂_map_self fun s _ => accords s ?_
    cases s with
    | defineExpr name body tag => exact ⟨⟨rfl, rfl⟩, .expr body.matches_unlocated⟩
    | defineBlock name body tag =>
      refine ⟨⟨rfl, rfl⟩, .block ?_⟩
      rw [Stmt.unlocatedAll_eq_map]
      exact forall₂_map_self fun s _ => accords s trivial
    | _ => exact trivial
  | conditions =>
    exact forall₂_map_self fun s _ => s.matches_unlocated (fun e => .inl e.matches_unlocated)
      (fun e => .inl e.matches_unlocated) Expr.matches_unlocated rfl
  | types | chains =>
    exact forall₂_map_self fun s _ => s.matches_unlocated (fun e => .inl e.matches_unlocated)
      (fun e => .inl e.matches_unlocated) Expr.matches_unlocated rfl
  | _ => exact forall₂_map_self fun s _ => accords s rfl

variable {registry stage program}

theorem Matched.eq_unlocated {program' : List Stmt} (matched : stage.next.Matched .unlocated
      registry (fun s s' => s' = s.unlocated) program program') :
    program' = program.map Stmt.unlocated := by
  have accords {granted : Expr → Prop} (matched : List.Forall₂ (Stmt.Accords .unlocated granted
      fun s s' => s' = s.unlocated) program program') : program' = program.map Stmt.unlocated :=
    eq_map_of_forall₂ (matched.imp fun _ _ first => first.eq_unlocated
      Expr.FitsRoot.eq_unlocated Expr.FitsRoot.eq_unlocated Expr.FitsRoot.eq_unlocated id)
  have lowered (matched : List.Forall₂ (Stmt.MatchesLowered .unlocated
      fun s s' => s' = s.unlocated) program program') : program' = program.map Stmt.unlocated :=
    eq_map_of_forall₂ (matched.imp fun _ _ first => first.eq_unlocated
      (fun values => values.elim Expr.Matches.eq_unlocated fun impossible => impossible.1.elim)
      (fun conditions => conditions.elim Expr.Matches.eq_unlocated
        fun impossible => impossible.1.elim) Expr.Matches.eq_unlocated id)
  cases stage with
  | blocks =>
    exact eq_map_of_forall₂ (matched.imp fun _ _ first => first.eq_unlocated
      Expr.FitsRoot.eq_unlocated Expr.FitsRoot.eq_unlocated Expr.Matches.eq_unlocated id)
  | conditions | types | chains => exact lowered matched
  | _ => exact accords matched

end Stage

theorem Stage.hasLeftover_unlocated (stage : Stage) (program : List Stmt) :
    stage.hasLeftover (program.map Stmt.unlocated) = stage.hasLeftover program :=
  (stage.hasLeftover_next (matched_unlocated .empty _ program)).2.resolve_left False.elim

theorem lowerThrough_unlocated (registry : Registry) (stages : List Stage) (program : List Stmt) :
    lowerThrough registry stages (program.map Stmt.unlocated) =
      unlocating (List.map Stmt.unlocated) (lowerThrough registry stages program) := by
  induction stages generalizing program with
  | nil => rfl
  | cons stage rest ih =>
    have ran := (stage.agree_runChecked False.elim
      (stage.matched_unlocated registry program)).eq_unlocating Stage.Matched.eq_unlocated
    rw [lowerThrough, lowerThrough, ran]
    exact unlocating_bind fun lowered => ih lowered

theorem emit_unlocated (program : List Stmt) : emit (program.map Stmt.unlocated) = emit program := by
  have agree := agree_emit (Stage.matched_unlocated .empty .chains program)
  cases emitted : emit program <;> cases emitted' : emit (program.map Stmt.unlocated) <;>
    rw [emitted, emitted'] at agree
  · exact congrArg Except.error (agree.resolve_left False.elim)
  · exact agree.elim
  · exact agree.elim
  · exact congrArg Except.ok (agree.resolve_left False.elim)

def CompileFailure.unlocated : CompileFailure → CompileFailure
  | .refused diagnostics => .refused (diagnostics.map fun reason => { reason with location := none })
  | .defect found => .defect found

/-- What comes of a program does not depend on the places of its parts, but for the places that
errors name. -/
theorem mapError_compileProgram (registry : Registry) (program : List Stmt) :
    compileProgram registry (program.map Stmt.unlocated) =
      (compileProgram registry program).mapError CompileFailure.unlocated := by
  rw [compileProgram, compileProgram, lowerProgram, lowerProgram, lowerThrough_unlocated]
  cases lowerThrough registry Stage.all program with
  | error failure => cases failure <;> rfl
  | ok lowered =>
    simp only [unlocating, emit_unlocated]
    cases emit lowered <;> rfl

theorem mapError_eq_ok_iff {α β γ : Type} {f : α → β} {x : Except α γ} {result : γ} :
    x.mapError f = .ok result ↔ x = .ok result := by
  constructor
  · intro same
    cases x with
    | error failure => cases same
    | ok found =>
      cases same
      rfl
  · rintro rfl
    rfl

/-- The document of a program does not depend on the places of its parts. -/
theorem compileProgram_unlocated (registry : Registry) (program : List Stmt) (document : Document) :
    compileProgram registry (program.map Stmt.unlocated) = .ok document ↔
      compileProgram registry program = .ok document := by
  rw [mapError_compileProgram, mapError_eq_ok_iff]

end AutomationScript
