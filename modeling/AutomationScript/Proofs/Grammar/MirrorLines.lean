import AutomationScript.Proofs.Grammar.MirrorStatements

/-!
# Reading the same line in two places

A line that opens no block is read in the same way in both places of a splice, broken or not.  It
takes one or two turns of the loop over statements, since a statement may end before a stray `end`
or `else`, and after it the loop stands behind the stop of each place.
-/

namespace AutomationScript

open List AutomationScript.Reader AutomationScript.Parser

namespace Grammar

/-! ## Turns of the loop over statements -/

/-- The loop over statements goes from one stream to another in some turns. -/
def Advances (xs ys : List PlacedToken) (statements : List Stmt) (errors : List Diagnostic)
    (turns : Nat) : Prop :=
  ∀ block fuel before rest session, 0 < fuel →
    programBody block fuel ⟨ys, before ++ errors⟩ = .ok rest session →
    programBody block (turns + fuel) ⟨xs, before⟩ = .ok (statements ++ rest) session

namespace Advances

variable {xs ys zs : List PlacedToken} {statements more : List Stmt}
  {errors errors' : List Diagnostic} {turns turns' : Nat}

theorem refl (xs : List PlacedToken) : Advances xs xs [] [] 0 := by
  intro block fuel before rest session _ ran
  rw [append_nil] at ran
  rwa [Nat.zero_add]

theorem trans (first : Advances xs ys statements errors turns)
    (second : Advances ys zs more errors' turns') :
    Advances xs zs (statements ++ more) (errors ++ errors') (turns + turns') := by
  intro block fuel before rest session some ran
  rw [← append_assoc] at ran
  have ranMore := second block fuel (before ++ errors) rest session some ran
  rw [Nat.add_assoc, append_assoc]
  exact first block (turns' + fuel) before (more ++ rest) session (by omega) ranMore

theorem of_dropTerminators (advances : Advances xs ys statements errors turns)
    (same : dropTerminators ys = dropTerminators zs) : Advances xs zs statements errors turns := by
  intro block fuel before rest session some ran
  rw [← programBody_congr same some] at ran
  exact advances block fuel before rest session some ran

theorem one (goesOn : isStop (headToken xs) = false)
    (turn : ∀ block before, orRecover (statement block true) [] ⟨xs, before⟩ =
      .ok statements ⟨ys, before ++ errors⟩) : Advances xs ys statements errors 1 := by
  intro block fuel before rest session _ ran
  have kept : dropTerminators xs = xs := by
    cases xs with
    | nil => rfl
    | cons first others =>
      have goesOn : isStop first.token = false := goesOn
      apply dropTerminators_cons_of_not
      intro terminates
      simp [isStop, terminates] at goesOn
  have notEnd : ¬decide (headToken (dropTerminators xs) = .eof) = true := by
    rw [kept, decide_eq_true_iff]
    intro isEnd
    rw [isEnd] at goesOn
    cases goesOn
  rw [Nat.add_comm, programBody_succ, gather_of_not_closes notEnd, kept]
  refine run_bind_eq_ok_iff.mpr ⟨_, _, turn block before, ?_⟩
  exact run_bind_eq_ok_iff.mpr ⟨_, _, ran, rfl⟩

end Advances

section Turns

variable {xs : List PlacedToken} (goesOn : isStop (headToken xs) = false)
  (simple : opensBlock (headToken xs) = false)

include goesOn simple

theorem advances_of_read {ys : List PlacedToken} {statements : List Stmt}
    (ran : simpleStatement (headToken xs) (headToken (xs.drop 1)) xs = .ok statements ys) :
    Advances xs ys statements [] 1 := by
  apply Advances.one goesOn
  intro block before
  apply orRecover_eq_ok
  rw [statement_eq_simpleStatement simple, liftReader, ran, append_nil]

theorem advances_of_failed {d : Diagnostic} {rest stop : List PlacedToken}
    (skipped : rest.dropWhile (fun placed => !(isStop placed.token || [].contains placed.token)) =
      stop)
    (failed : simpleStatement (headToken xs) (headToken (xs.drop 1)) xs = .error d rest) :
    Advances xs stop [] [d] 1 := by
  have advances : Advances xs (dropTerminators stop) [] [d] 1 := by
    apply Advances.one goesOn
    intro block before
    have reported : statement block true ⟨xs, before⟩ = .error d ⟨rest, before⟩ := by
      rw [statement_eq_simpleStatement simple, liftReader, failed]
    rw [orRecover_of_error reported, skipped]
  exact advances.of_dropTerminators (dropTerminators_dropTerminators stop)

end Turns

theorem dropWhile_of_isStop {xs : List PlacedToken} (stops : isStop (headToken xs) = true) :
    xs.dropWhile (fun placed => !(isStop placed.token || [].contains placed.token)) = xs := by
  cases xs with
  | nil => rfl
  | cons first others =>
    have stops : isStop first.token = true := stops
    rw [dropWhile_cons_of_neg]
    simp [stops]

variable {splice : Splice} {t : Token} {n : Nat} {xs ys : List PlacedToken}

theorem exists_stops (shown : splice.Shows t n xs ys) :
    ∃ stop stop', splice.Stops stop stop' ∧
      xs.dropWhile (fun placed => !(isStop placed.token || [].contains placed.token)) = stop ∧
      ys.dropWhile (fun placed => !(isStop placed.token || [].contains placed.token)) = stop' := by
  induction shown with
  | stop stops =>
    obtain ⟨atStop, atStop'⟩ := splice.stops stops
    exact ⟨_, _, stops, dropWhile_of_isStop atStop, dropWhile_of_isStop atStop'⟩
  | token goesOn _ _ ih =>
    obtain ⟨stop, stop', stops, dropped, dropped'⟩ := ih
    refine ⟨stop, stop', stops, ?_, ?_⟩
    · rwa [dropWhile_cons_of_pos (by simp [goesOn])]
    · rwa [dropWhile_cons_of_pos (by simp [goesOn])]

theorem exists_told (shown : splice.Shows t n xs ys) (goesOn : isStop t = false) :
    headToken xs = t ∧ headToken ys = t ∧ ∃ second,
      simpleStatement t (headToken (xs.drop 1)) = simpleStatement t second ∧
      simpleStatement t (headToken (ys.drop 1)) = simpleStatement t second := by
  cases shown with
  | stop _ => cases goesOn
  | @token _ second _ _ _ xs ys _ _ rest =>
    refine ⟨rfl, rfl, second, ?_⟩
    cases rest with
    | token _ _ _ => exact ⟨rfl, rfl⟩
    | stop stops =>
      obtain ⟨atStop, atStop'⟩ := splice.stops stops
      exact ⟨simpleStatement_of_isStop t _ atStop, simpleStatement_of_isStop t _ atStop'⟩

/-- A line that starts no block is read in one or two turns, with the same statements and the same
errors in both places. -/
theorem exists_advances (shown : splice.Shows t n xs ys) (goesOn : isStop t = false)
    (simple : opensBlock t = false) :
    ∃ stop stop' statements statements' errors errors' turns, splice.Stops stop stop' ∧
      turns ≤ n ∧ Forall₂ splice.Blames errors errors' ∧
      Forall₂ (Stmt.Same splice.slack fun _ _ => False) statements statements' ∧
      Advances xs stop statements errors turns ∧ Advances ys stop' statements' errors' turns := by
  induction n using Nat.strongRecOn generalizing t xs ys with
  | ind n ih =>
    obtain ⟨isFirst, isFirst', second, told, told'⟩ := exists_told shown goesOn
    have some : 0 < n := by
      cases shown with
      | stop _ => cases goesOn
      | token _ _ _ => exact Nat.succ_pos _
    have ended := completes_simpleStatement splice n (fun _ _ => False) t second n (Nat.le_refl n)
      t xs ys shown rfl
    generalize ran : simpleStatement t second xs = outcome at ended
    generalize ran' : simpleStatement t second ys = outcome' at ended
    rw [← told] at ran
    rw [← told'] at ran'
    subst isFirst
    have goesOn' : isStop (headToken ys) = false := isFirst' ▸ goesOn
    have simple' : opensBlock (headToken ys) = false := isFirst' ▸ simple
    rw [← isFirst'] at ran'
    cases ended with
    | error blames failed =>
      obtain ⟨_, _, rest⟩ := failed
      obtain ⟨stop, stop', stops, skipped, skipped'⟩ := exists_stops rest
      refine ⟨stop, stop', [], [], _, _, 1, stops, some, .cons blames .nil, .nil, ?_, ?_⟩
      · exact advances_of_failed goesOn simple skipped ran
      · exact advances_of_failed goesOn' simple' skipped' ran'
    | ok same left =>
      have advances := advances_of_read goesOn simple ran
      have advances' := advances_of_read goesOn' simple' ran'
      cases left with
      | stop _ stops =>
        exact ⟨_, _, _, _, [], [], 1, stops, some, .nil, same,
          advances.of_dropTerminators (dropTerminators_passStop _),
          advances'.of_dropTerminators (dropTerminators_passStop _)⟩
      | @shown word _ _ _ rest fewer closes =>
        -- No statement starts with such a word, so it fails there.
        obtain ⟨restGoesOn, restSimple⟩ : isStop word = false ∧ opensBlock word = false := by
          rcases closes rfl with rfl | rfl <;> exact ⟨rfl, rfl⟩
        obtain ⟨stop, stop', later, later', errors, errors', turns, stops, few, blames, sameLater,
          more, more'⟩ := ih _ (by omega) rest restGoesOn restSimple
        exact ⟨stop, stop', _ ++ later, _ ++ later', errors, errors', 1 + turns, stops, by omega,
          blames, rel_append same sameLater, advances.trans more, advances'.trans more'⟩

end Grammar

end AutomationScript
