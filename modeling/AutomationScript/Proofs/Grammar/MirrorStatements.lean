import AutomationScript.Proofs.Grammar.MirrorExpressions

/-!
# Reading the same statement in two places

A statement without a block is read in the same way in both places of a splice, broken or not.  It
ends at the stop, or fails, or ends before a stray `end` or `else`.
-/

namespace AutomationScript

open AutomationScript.Reader AutomationScript.Parser Splice

/-! ## Ends of statements -/

section Terminators

variable {xs : List PlacedToken}

theorem dropTerminators_passStop (xs : List PlacedToken) :
    dropTerminators (passStop xs) = dropTerminators xs := by
  unfold passStop
  split
  · next terminates => exact dropTerminators_after terminates
  · rfl

theorem expectTerminator_of_stop (stops : isStop (headToken xs) = true) :
    expectTerminator xs = .ok () (passStop xs) := by
  rw [expectTerminator_run, passStop]
  generalize headToken xs = token at stops
  cases token <;> first | rfl | cases stops

theorem expectTerminator_of_closer (closes : headToken xs = .endWord ∨ headToken xs = .elseWord) :
    expectTerminator xs = .ok () xs := by
  rw [expectTerminator_run]
  rcases closes with isEnd | isElse
  · rw [isEnd]
  · rw [isElse]

theorem expectTerminator_of_other (goesOn : isStop (headToken xs) = false)
    (stays : ¬(headToken xs = .endWord ∨ headToken xs = .elseWord)) :
    expectTerminator xs =
      .error ⟨.grammar (.expectedTerminator (headToken xs)), some (headLoc xs)⟩ xs := by
  rw [expectTerminator_run]
  generalize headToken xs = token at goesOn stays ⊢
  cases token with
  | newline => cases goesOn
  | semicolon => cases goesOn
  | eof => cases goesOn
  | endWord => exact absurd (.inl rfl) stays
  | elseWord => exact absurd (.inr rfl) stays
  | _ => rfl

end Terminators

variable {splice : Splice} {n : Nat} {pre : Token → Prop}

theorem Splice.InStep.terminated {α β : Type} {post : α → β → Prop} {a : α} {b : β}
    (holds : post a b) :
    splice.Completes n 0 pre post (expectTerminator >>= fun _ => Pure.pure a)
      (expectTerminator >>= fun _ => Pure.pure b) := by
  intro m _ t xs ys shown _
  change Ends _ _ _ _ (EStateM.bind expectTerminator _ xs) (EStateM.bind expectTerminator _ ys)
  unfold EStateM.bind
  cases shown with
  | stop stops =>
    obtain ⟨atStop, atStop'⟩ := splice.stops stops
    rw [expectTerminator_of_stop atStop, expectTerminator_of_stop atStop']
    exact .ok holds (.stop rfl stops)
  | @token _ _ _ loc loc' xs ys goesOn placed rest =>
    have shown := Shows.token goesOn placed rest
    by_cases closes : t = .endWord ∨ t = .elseWord
    · have ran : ∀ loc xs, expectTerminator (⟨t, loc⟩ :: xs) = .ok () (⟨t, loc⟩ :: xs) :=
        fun _ _ => expectTerminator_of_closer closes
      rw [ran, ran]
      exact .ok holds (.shown shown (Nat.le_refl _) fun _ => closes)
    · have ran : ∀ loc xs, expectTerminator (⟨t, loc⟩ :: xs) =
          .error ⟨.grammar (.expectedTerminator t), some loc⟩ (⟨t, loc⟩ :: xs) :=
        fun _ _ => expectTerminator_of_other goesOn closes
      rw [ran, ran]
      exact .error (.same _ placed) ⟨_, _, shown⟩

namespace Grammar

variable {defines : Stmt → Stmt → Prop}

/-! ## Statements on one line -/

theorem mirrors_conditionPart :
    splice.Mirrors n 0 pre (Option.Rel (Phrase.Same splice.slack)) conditionPart conditionPart := by
  apply InStep.peek_bind_alike (forall_isStop ⟨rfl, rfl⟩ ⟨rfl, rfl⟩ ⟨rfl, rfl⟩)
  intro token _
  by_cases isIf : token = .ifWord
  · subst isIf
    apply (InStep.advance (goesOn_of_eq rfl)).discard.bind_loose
    intro _ _ m _ fewer
    exact (mirrors_expression.bind fun _ _ _ conditions _ => .pure (.some conditions)).loose
  · rw [if_neg isIf]
    exact .pure .none

abbrev CompletesStmt (splice : Splice) (n : Nat) (pre : Token → Prop)
    (defines : Stmt → Stmt → Prop) (x y : Reader Stmt) : Prop :=
  splice.Completes n 1 pre (Stmt.Same splice.slack defines) x y

theorem completes_assignment : CompletesStmt splice n pre defines assignment assignment := by
  apply (mirrors_target.within (Nat.le_refl n)).bind
  intro target target' m targets fewer
  apply (InStep.expect rfl).discard.bind_loose
  intro _ _ k _ fewerStill
  apply mirrors_expression.bind_loose
  intro value value' j values _
  have placed := splice.slack.union targets.loc values.loc
  apply mirrors_conditionPart.bind
  intro condition condition' _ conditions _
  cases conditions with
  | none =>
    exact .terminated (.assign targets.expr values.expr .none ⟨placed, .inr rfl⟩)
  | some conditions =>
    have covered := splice.slack.union placed conditions.loc
    exact .terminated
      (.assign targets.expr values.expr (.some conditions.expr) ⟨covered, .inr rfl⟩)

theorem mirrors_triggerArgument :
    splice.Mirrors n 1 pre
      (fun arg arg' => arg.1.Matches splice.slack arg'.1 ∧ splice.Places arg.2 arg'.2)
      triggerArgument triggerArgument := by
  apply InStep.expectIdent.bind
  rintro ⟨kind, kindLoc⟩ ⟨_, kindLoc'⟩ m ⟨rfl, kindPlaced⟩ fewer
  apply InStep.expectIdent.bind_loose
  rintro ⟨id, idLoc⟩ ⟨_, idLoc'⟩ k ⟨rfl, idPlaced⟩ fewerStill
  have placed := kindPlaced.union idPlaced
  apply InStep.peek_bind_alike (forall_isStop ⟨rfl, rfl⟩ ⟨rfl, rfl⟩ ⟨rfl, rfl⟩)
  intro token _
  by_cases counted : token = .leftParen
  · subst counted
    apply (InStep.advance (goesOn_of_eq rfl)).discard.bind_loose
    intro _ _ _ _ _
    apply InStep.peek_bind_naming ⟨_, fun _ => rfl⟩ (forall_isStop ⟨rfl, rfl⟩ ⟨rfl, rfl⟩ ⟨rfl, rfl⟩)
    intro found isBefore
    cases found with
    | number value =>
      apply (InStep.advance (goesOn_of_eq isBefore)).bind_loose
      intro countLoc countLoc' _ countPlaced _
      apply (InStep.expect rfl).bind_loose
      intro closing closing' _ closings _
      have covered := placed.union closings
      exact .pure ⟨⟨⟨rfl, kindPlaced⟩, ⟨rfl, idPlaced⟩, .some (.atom (.number value countPlaced)),
        covered⟩, covered⟩
    | _ => exact .fail_here (goesOn_of_eq isBefore) _
  · rw [if_neg counted, if_neg counted]
    exact .pure ⟨⟨⟨rfl, kindPlaced⟩, ⟨rfl, idPlaced⟩, .none, placed⟩, placed⟩

theorem completes_inlineTrigger :
    CompletesStmt splice n pre defines inlineTrigger inlineTrigger := by
  apply mirrors_triggerArgument.bind
  intro action action' m actions fewer
  apply (InStep.expect rfl).discard.bind_loose
  intro _ _ k _ fewerStill
  apply mirrors_triggerArgument.bind_loose
  intro condition condition' _ conditions _
  exact .terminated (.trigger conditions.1 (.cons actions.1 .nil)
    ⟨actions.2.union conditions.2, .inr rfl⟩)

theorem completes_useStatement (goesOn : ∀ t, pre t → isStop t = false) :
    CompletesStmt splice n pre defines useStatement useStatement := by
  apply (InStep.advance goesOn).bind
  intro start start' m starts fewer
  apply InStep.expectIdent.bind_loose
  rintro ⟨name, loc⟩ ⟨_, loc'⟩ _ ⟨rfl, placed⟩ _
  exact .terminated (.use ⟨rfl, placed⟩ ⟨starts.union placed, .inr rfl⟩)

/-- Whether a statement that starts with this token has a block or is a definition. -/
def opensBlock : Token → Bool
  | .ifWord | .whenWord | .defWord => true
  | _ => false

/-- A statement without a block, told by its first two tokens. -/
def simpleStatement : (first second : Token) → Reader (List Stmt)
  | .useWord, _ => (fun stmt => [stmt]) <$> useStatement
  | .ident _, .ident _ => (fun stmt => [stmt]) <$> inlineTrigger
  | .ident _, _ => (fun stmt => [stmt]) <$> assignment
  | _, _ => unexpected

theorem liftReader_map {α β : Type} (f : α → β) (reader : Reader α) :
    liftReader (f <$> reader) = liftReader reader >>= fun a => pure (f a) := by
  rw [← bind_pure_comp, liftReader_bind]
  rfl

theorem statement_eq_simpleStatement
    {xs : List PlacedToken} (simple : opensBlock (headToken xs) = false)
    (block : Parser (List Stmt)) (topLevel : Bool) (errors : List Diagnostic) :
    statement block topLevel ⟨xs, errors⟩ =
      liftReader (simpleStatement (headToken xs) (headToken (xs.drop 1))) ⟨xs, errors⟩ := by
  have seen : ∀ next : Token → Parser (List Stmt),
      (liftReader peek >>= next) ⟨xs, errors⟩ = next (headToken xs) ⟨xs, errors⟩ :=
    fun _ => rfl
  have seenSecond : ∀ next : Token → Parser (List Stmt),
      (liftReader peekSecond >>= next) ⟨xs, errors⟩ =
        next (headToken (xs.drop 1)) ⟨xs, errors⟩ :=
    fun _ => rfl
  unfold statement
  refine (seen _).trans ?_
  generalize headToken xs = first at simple ⊢
  cases first with
  | ifWord => cases simple
  | whenWord => cases simple
  | defWord => cases simple
  | useWord =>
    rw [simpleStatement, liftReader_map]
    rfl
  | ident name =>
    refine (seenSecond _).trans ?_
    generalize headToken (xs.drop 1) = second
    cases second with
    | ident _ =>
      rw [simpleStatement, liftReader_map]
      rfl
    | _ =>
      rw [simpleStatement, liftReader_map]
      · rfl
      · rintro _ ⟨⟩
  | _ => rfl

theorem completes_simpleStatement
    (splice : Splice) (n : Nat) (defines : Stmt → Stmt → Prop) (first second : Token) :
    splice.Completes n 1 (· = first) (List.Forall₂ (Stmt.Same splice.slack defines))
      (simpleStatement first second) (simpleStatement first second) := by
  have single : ∀ {x : Reader Stmt}, CompletesStmt splice n (· = first) defines x x →
      splice.Completes n 1 (· = first) (List.Forall₂ (Stmt.Same splice.slack defines))
        ((fun stmt => [stmt]) <$> x) ((fun stmt => [stmt]) <$> x) :=
    fun completes => .map (completes.mono (Nat.le_refl n) (Nat.le_refl 1) (fun _ => id)
      fun same => .cons same .nil)
  cases first with
  | useWord => exact single (completes_useStatement (goesOn_of_eq rfl))
  | ident name =>
    cases second with
    | ident _ => exact single completes_inlineTrigger
    | _ => exact single completes_assignment
  | _ => exact .unexpected

theorem simpleStatement_of_isStop (first : Token) :
    ∀ s, isStop s = true → simpleStatement first s = simpleStatement first .eof := by
  cases first <;> exact forall_isStop rfl rfl rfl

end Grammar

end AutomationScript
