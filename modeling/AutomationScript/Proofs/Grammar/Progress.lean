import AutomationScript.Proofs.Grammar.Onward

/-!
# Progress

A statement that is read takes tokens, and one that is broken is skipped by at least one token.  So
every list of statements comes to its end, and no bound on the number of its items cuts it short.
-/

namespace AutomationScript

open List AutomationScript.Reader AutomationScript.Parser

theorem onward_dropTerminators (session : Session) :
    Onward session ⟨dropTerminators session.tokens, session.errors⟩ := by
  have onward := onward_dropWhile isTerminator rfl session.tokens
  exact ⟨onward.later, onward.ends, prefix_refl _⟩

theorem isTerminator_dropTerminators (stream : List PlacedToken) :
    isTerminator (headToken (dropTerminators stream)) = false := by
  induction stream with
  | nil => rfl
  | cons first rest ih =>
    by_cases terminates : isTerminator first.token = true
    · rw [dropTerminators_cons terminates, ih]
    · rw [dropTerminators_cons_of_not terminates]
      exact Bool.not_eq_true _ ▸ terminates

namespace Grammar

/-! ## One pass -/

section Passes

variable {α : Type} {closes : Token → Bool} {item more : Parser (List α)} {session : Session}

/-- Where the list goes on, an item is read or skipped, and tokens are gone. -/
def Shortens (closes : Token → Bool) (item : Parser (List α)) : Prop :=
  ∀ session, EndsInput session.tokens → isTerminator (headToken session.tokens) = false →
    closes (headToken session.tokens) = false →
    ∃ values session', item session = .ok values session' ∧ Onward session session' ∧
      session'.tokens.length < session.tokens.length

/-- A broken item is skipped by a token, since the recovery does not stop at its first one. -/
theorem shortens_orRecover {parser : Parser (List α)} [Consumes parser] {closers : List Token}
    (passed : ∀ t, closes t = false → t ≠ .eof ∧ t ∉ closers) :
    Shortens closes (orRecover parser closers) := by
  intro session ends goesOn stays
  obtain ⟨inside, unstopped⟩ := passed _ stays
  cases ran : parser session with
  | ok values session' =>
    exact ⟨values, session', orRecover_eq_ok ran, onward_of_run ran, Consumes.fewer ends inside ran⟩
  | error d failed =>
    have recovered : orRecover parser closers session = _ := orRecover_of_error ran
    refine ⟨[], _, recovered, onward_of_run recovered, ?_⟩
    have later : failed.tokens <:+ session.tokens := (onward_of_error ran).later
    refine Nat.lt_of_le_of_lt (dropWhile_suffix _).length_le ?_
    by_cases moved : failed.tokens.length < session.tokens.length
    · exact Nat.lt_of_le_of_lt (dropWhile_suffix _).length_le moved
    · rw [later.eq_of_length_le (Nat.le_of_not_lt moved)]
      cases whole : session.tokens with
      | nil => exact absurd whole ends.ne_nil
      | cons first rest =>
        rw [whole] at goesOn inside unstopped
        change isTerminator first.token = false at goesOn
        change first.token ≠ .eof at inside
        change first.token ∉ closers at unstopped
        rw [dropWhile_cons_of_pos (by simp [isStop, goesOn, inside, unstopped])]
        exact Nat.lt_succ_of_le (dropWhile_suffix _).length_le

/-- A pass of a loop ends it before a token that closes the list, or goes on with fewer tokens. -/
inductive Passes (closes : Token → Bool) (loop rest : Parser (List α)) (session : Session) : Prop
  | ends (closed : closes (headToken (dropTerminators session.tokens)) = true)
      (ran : loop session = .ok [] ⟨dropTerminators session.tokens, session.errors⟩)
  | goesOn (values : List α) (session' : Session) (onward : Onward session session')
      (fewer : session'.tokens.length < session.tokens.length)
      (ran : loop session = ((fun others => values ++ others) <$> rest) session')

theorem passes_gather (shortens : Shortens closes item) (ends : EndsInput session.tokens) :
    Passes closes (gather closes item more) more session := by
  obtain ⟨xs, errors⟩ := session
  have onward := onward_dropTerminators ⟨xs, errors⟩
  cases closed : closes (headToken (dropTerminators xs)) with
  | true => exact .ends closed (gather_of_closes closed)
  | false =>
    obtain ⟨values, session', ran, later, fewer⟩ :=
      shortens _ (onward.ends ends) (isTerminator_dropTerminators xs) closed
    refine .goesOn values session' (onward.trans later)
      (Nat.lt_of_lt_of_le fewer onward.later.length_le) ?_
    rw [gather_of_not_closes (Bool.eq_false_iff.mp closed)]
    show EStateM.bind item _ _ = _
    unfold EStateM.bind
    rw [ran]
    rfl

end Passes

/-! ## Bounds -/

/-- Two computations do the same wherever fewer than `n` tokens are left. -/
def Agrees {α : Type} (n : Nat) (x y : Parser α) : Prop :=
  ∀ s, EndsInput s.tokens → s.tokens.length < n → x s = y s

section Agrees

variable {α β : Type} {n : Nat} {x y : Parser α} {next next' : α → Parser β}

theorem Agrees.refl (x : Parser α) : Agrees n x x :=
  fun _ _ _ => rfl

theorem Agrees.mono {m : Nat} (agrees : Agrees n x y) (fewer : m ≤ n) : Agrees m x y :=
  fun s ends few => agrees s ends (Nat.lt_of_lt_of_le few fewer)

theorem Agrees.bind [GoesOn x] (first : Agrees n x y) (second : ∀ a, Agrees n (next a) (next' a)) :
    Agrees n (x >>= next) (y >>= next') := by
  intro s ends few
  show EStateM.bind x next s = EStateM.bind y next' s
  unfold EStateM.bind
  rw [← first s ends few]
  cases ran : x s with
  | error d s' => rfl
  | ok a s' =>
    have onward := onward_of_run ran
    exact second a s' (onward.ends ends) (Nat.lt_of_le_of_lt onward.later.length_le few)

/-- What follows a token that is taken has fewer tokens left. -/
theorem run_bind_eq_of_agrees [Consumes x] {s : Session}
    (second : ∀ a, Agrees s.tokens.length (next a) (next' a)) (ends : EndsInput s.tokens)
    (inside : headToken s.tokens ≠ .eof) : (x >>= next) s = (x >>= next') s := by
  show EStateM.bind x next s = EStateM.bind x next' s
  unfold EStateM.bind
  cases ran : x s with
  | error d s' => rfl
  | ok a s' =>
    exact second a s' ((onward_of_run ran).ends ends) (Consumes.fewer ends inside ran)

end Agrees

section Bodies

variable {body body' : Parser (List Stmt)} [GoesOn body] {n : Nat} {s : Session}

theorem agrees_brokenBlock (agrees : Agrees n body body') :
    Agrees n (brokenBlock body) (brokenBlock body') := by
  have discarded : Agrees n (discard body) (discard body') := agrees.bind fun _ => .refl _
  refine discarded.bind fun _ => (Agrees.refl _).bind fun token => ?_
  dsimp only
  split
  · exact (Agrees.refl _).bind fun _ => discarded.bind fun _ => .refl _
  · exact .refl _

theorem agrees_elsePart (agrees : Agrees n body body') (condition : Expr) :
    Agrees n (elsePart body condition) (elsePart body' condition) := by
  refine (Agrees.refl _).bind fun token => ?_
  split
  · exact (Agrees.refl _).bind fun loc => agrees.bind fun _ => .refl _
  · exact .refl _

/-- The body of a block is read after the first token of the statement. -/
theorem statement_congr (agrees : Agrees s.tokens.length body body') (topLevel : Bool)
    (ends : EndsInput s.tokens) (inside : headToken s.tokens ≠ .eof) :
    statement body topLevel s = statement body' topLevel s := by
  have block : conditionBlock body s = conditionBlock body' s := by
    refine run_bind_eq_of_agrees (fun start => (Agrees.refl _).bind fun head => ?_) ends inside
    cases head with
    | error error =>
      exact (Agrees.refl _).bind fun _ => (Agrees.refl _).bind fun _ => agrees_brokenBlock agrees
    | ok condition => exact agrees.bind fun _ => (agrees_elsePart agrees _).bind fun _ => .refl _
  have defined : definition body s = definition body' s := by
    refine run_bind_eq_of_agrees (fun start => (Agrees.refl _).bind fun name => ?_) ends inside
    refine (Agrees.refl _).bind fun token => ?_
    split
    · exact .refl _
    · exact (Agrees.refl _).bind fun _ => agrees.bind fun _ => .refl _
    · exact .refl _
  have seen : ∀ next : Token → Parser (List Stmt),
      (liftReader peek >>= next) s = next (headToken s.tokens) s :=
    fun _ => rfl
  refine (seen _).trans (Eq.trans ?_ (seen _).symm)
  generalize headToken s.tokens = token
  cases token with
  | ifWord => exact block
  | defWord =>
    show EStateM.bind (definition body) _ s = EStateM.bind (definition body') _ s
    unfold EStateM.bind
    rw [defined]
  | _ => rfl

theorem orRecover_congr {α : Type} {parser parser' : Parser (List α)} {closers : List Token}
    (same : parser s = parser' s) : orRecover parser closers s = orRecover parser' closers s := by
  show EStateM.bind (attempt parser) _ s = EStateM.bind (attempt parser') _ s
  unfold EStateM.bind attempt
  rw [same]

end Bodies

section Loops

variable {α : Type} {closes : Token → Bool} {item item' more more' : Parser (List α)}
  {session : Session}

/-- Items are gathered in the same way if they are read in the same way where the list goes on. -/
theorem gather_eq_of_agrees (shortens : Shortens closes item) (ends : EndsInput session.tokens)
    (sameItem : ∀ s : Session, EndsInput s.tokens → s.tokens.length ≤ session.tokens.length →
      closes (headToken s.tokens) = false → item s = item' s)
    (sameMore : Agrees session.tokens.length more more') :
    gather closes item more session = gather closes item' more' session := by
  obtain ⟨xs, errors⟩ := session
  have onward := onward_dropTerminators ⟨xs, errors⟩
  cases closed : closes (headToken (dropTerminators xs)) with
  | true => rw [gather_of_closes closed, gather_of_closes closed]
  | false =>
    have goesOn := Bool.eq_false_iff.mp closed
    obtain ⟨values, s', ran, later, fewer⟩ :=
      shortens _ (onward.ends ends) (isTerminator_dropTerminators xs) closed
    have few := Nat.lt_of_lt_of_le fewer onward.later.length_le
    rw [gather_of_not_closes goesOn, gather_of_not_closes goesOn]
    show EStateM.bind item _ _ = EStateM.bind item' _ _
    unfold EStateM.bind
    rw [← sameItem _ (onward.ends ends) onward.later.length_le closed, ran]
    show EStateM.bind more _ s' = EStateM.bind more' _ s'
    unfold EStateM.bind
    rw [sameMore s' (later.ends (onward.ends ends)) few]

/-- Every pass of the loop ends it or takes tokens.  It ends before a token that closes the list,
and bounds that exceed the number of tokens make no difference. -/
structure Progresses (closes : Token → Bool) (loop : Nat → Parser (List α)) : Prop where
  passes : ∀ fuel session, EndsInput session.tokens →
    Passes closes (loop (fuel + 1)) (loop fuel) session
  ends : ∀ fuel session, EndsInput session.tokens → session.tokens.length ≤ fuel →
    ∃ values session', loop fuel session = .ok values session' ∧ Onward session session' ∧
      closes (headToken session'.tokens) = true
  bound : ∀ fuel session, EndsInput session.tokens → session.tokens.length ≤ fuel →
    loop fuel session = loop session.tokens.length session

variable {loop item : Nat → Parser (List α)}

/-- A loop gathers items, each of which it reads in the same way whatever bound is left. -/
theorem progresses_of_gather
    (step : ∀ fuel, loop (fuel + 1) = gather closes (item fuel) (loop fuel))
    (shortens : ∀ fuel, Shortens closes (item fuel))
    (sameItem : ∀ fuel fuel' s, Agrees s.tokens.length (loop fuel) (loop fuel') →
      EndsInput s.tokens → closes (headToken s.tokens) = false → item fuel s = item fuel' s) :
    Progresses closes loop := by
  have passes : ∀ fuel session, EndsInput session.tokens →
      Passes closes (loop (fuel + 1)) (loop fuel) session := by
    intro fuel session ends
    rw [step]
    exact passes_gather (shortens fuel) ends
  have agrees : ∀ n fuel fuel', n ≤ fuel → n ≤ fuel' → Agrees (n + 1) (loop fuel) (loop fuel') := by
    intro n
    induction n with
    | zero =>
      intro fuel fuel' _ _ s ends few
      exact absurd (length_eq_zero_iff.mp (Nat.lt_one_iff.mp few)) ends.ne_nil
    | succ n ih =>
      intro fuel fuel' enough enough' s ends few
      obtain ⟨fuel, rfl⟩ := Nat.exists_eq_add_of_le' (Nat.zero_lt_of_lt enough)
      obtain ⟨fuel', rfl⟩ := Nat.exists_eq_add_of_le' (Nat.zero_lt_of_lt enough')
      have before := ih fuel fuel' (Nat.le_of_succ_le_succ enough) (Nat.le_of_succ_le_succ enough')
      have within := Nat.le_of_lt_succ few
      rw [step, step]
      refine gather_eq_of_agrees (shortens fuel) ends (fun s' ends' fewer stays => ?_)
        (before.mono within)
      exact sameItem fuel fuel' s' (before.mono (Nat.le_trans fewer within)) ends' stays
  refine ⟨passes, fun fuel session ends enough => ?_, fun fuel session ends enough =>
    agrees _ fuel _ enough (Nat.le_refl _) session ends (Nat.lt_succ_self _)⟩
  induction fuel generalizing session with
  | zero => exact absurd (length_eq_zero_iff.mp (Nat.le_zero.mp enough)) ends.ne_nil
  | succ fuel ih =>
    cases passes fuel session ends with
    | ends closed ran => exact ⟨[], _, ran, onward_dropTerminators session, closed⟩
    | goesOn values session' onward fewer ran =>
      obtain ⟨others, last, more, later, closed⟩ := ih session' (onward.ends ends) (by omega)
      refine ⟨values ++ others, last, ?_, onward.trans later, closed⟩
      rw [ran]
      show EStateM.map _ _ _ = _
      unfold EStateM.map
      rw [more]

end Loops

/-! ## Scripts -/

theorem progresses_blockBody : Progresses closesBlock blockBody := by
  refine progresses_of_gather blockBody_succ
    (fun fuel => shortens_orRecover fun t stays => ?_) fun fuel fuel' s agrees ends stays => ?_
  · simp_all [closesBlock]
  · refine orRecover_congr (statement_congr agrees false ends fun isEof => ?_)
    rw [isEof] at stays
    cases stays

theorem progresses_programBody (body : Parser (List Stmt)) [GoesOn body] :
    Progresses (fun t => t = .eof) (programBody body) := by
  refine progresses_of_gather programBody_succ
    (fun fuel => shortens_orRecover fun t stays => ?_) fun _ _ _ _ _ _ => rfl
  simp_all

theorem progresses_triggerActions :
    Progresses (fun t => t = .endWord ∨ t = .eof) triggerActions := by
  have : Consumes (liftReader actionPart) :=
    inferInstanceAs (Consumes (liftM actionPart : Parser (List TriggerArg)))
  refine progresses_of_gather triggerActions_succ
    (fun fuel => shortens_orRecover fun t stays => ?_) fun _ _ _ _ _ _ => rfl
  simp_all

/-- The rest of a stream that starts with the end of the input is the end of the input. -/
theorem eq_of_suffix_of_eof {front rest : List PlacedToken} {last : PlacedToken}
    (only : ∀ placed ∈ front, placed.token ≠ .eof) (later : rest <:+ front ++ [last])
    (ends : EndsInput rest) (atEnd : headToken rest = .eof) : rest = [last] := by
  obtain ⟨taken, whole⟩ := later
  obtain ⟨inside, loc, rfl⟩ := ends
  rw [← append_assoc] at whole
  obtain ⟨isFront, isLast⟩ := append_inj' whole rfl
  cases inside with
  | nil => exact isLast
  | cons first others => exact absurd atEnd (only first (by simp [← isFront]))

/-- Whatever the tokens before the end of the input, the statements are read up to there.  Every
pass of the loops over the statements of a script, of a block and over the actions of a trigger
ends the loop or takes tokens, whether the item in it is read or skipped, and the bounds on the
number of passes make no difference. -/
theorem program_progress {front : List PlacedToken} {last : PlacedToken}
    (isLast : last.token = .eof) (only : ∀ placed ∈ front, placed.token ≠ .eof) :
    (∃ statements errors, program ⟨front ++ [last], []⟩ = .ok statements ⟨[last], errors⟩) ∧
    (∀ bound, Progresses (fun t => t = .eof) (programBody (blockBody bound))) ∧
    Progresses closesBlock blockBody ∧
    Progresses (fun t => t = .endWord ∨ t = .eof) triggerActions := by
  have ends : EndsInput (front ++ [last]) := ⟨front, last.loc, by rw [← isLast]⟩
  refine ⟨?_, fun bound => progresses_programBody _, progresses_blockBody,
    progresses_triggerActions⟩
  obtain ⟨statements, ⟨rest, errors⟩, ran, onward, closed⟩ :=
    (progresses_programBody (blockBody (front ++ [last]).length)).ends _ ⟨front ++ [last], []⟩
      ends (Nat.le_refl _)
  have isRest : rest = [last] :=
    eq_of_suffix_of_eof only onward.later (onward.ends ends) (of_decide_eq_true closed)
  exact ⟨statements, errors, isRest ▸ ran⟩

/-- An `end` that closes nothing, a head that breaks off, and an `else` in a list of actions. -/
theorem program_progress_broken :
    let place : Location := ⟨⟨1, 1⟩, ⟨1, 1⟩⟩
    let front : List PlacedToken := [⟨.endWord, place⟩, ⟨.ifWord, place⟩, ⟨.newline, place⟩,
      ⟨.whenWord, place⟩, ⟨.doWord, place⟩, ⟨.elseWord, place⟩]
    ∃ statements errors, program ⟨front ++ [⟨.eof, place⟩], []⟩ =
      .ok statements ⟨[⟨.eof, place⟩], errors⟩ :=
  (program_progress rfl (by simp)).1

end Grammar

end AutomationScript
