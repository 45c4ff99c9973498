import AutomationScript.Grammar.Statement

/-!
# Runs of readers and parsers

What a run that succeeds is made of: steps in a row (`run_bind_eq_ok_iff`), ends of statements that
are skipped (`dropTerminators`), and lists of items (`gather`).
-/

namespace AutomationScript

open Reader AutomationScript.Parser

variable {first : PlacedToken} {rest : List PlacedToken} {errors : List Diagnostic}

def tokensOf (stream : List PlacedToken) : List Token :=
  stream.map PlacedToken.token

def headOf (tokens : List Token) : Token :=
  tokens.headD .eof

theorem headToken_eq (stream : List PlacedToken) : headToken stream = headOf (tokensOf stream) := by
  cases stream <;> rfl

theorem Reader.after_cons {others : List PlacedToken} (more : others ≠ []) :
    after (first :: others) = others := by
  cases others with
  | nil => exact absurd rfl more
  | cons next rest => rfl

theorem isStop_eof {last : PlacedToken} (isEof : last.token = .eof) :
    isStop (headToken (last :: rest)) = true := by
  simp [headToken, isStop, isEof]

/-! ## Steps in a row -/

section Runs

variable {ε σ α β : Type}

theorem run_bind_eq_ok_iff {x : EStateM ε σ α} {next : α → EStateM ε σ β} {s t : σ} {b : β} :
    (x >>= next) s = .ok b t ↔ ∃ a middle, x s = .ok a middle ∧ next a middle = .ok b t := by
  show EStateM.bind x next s = .ok b t ↔ _
  unfold EStateM.bind
  cases ran : x s with
  | ok a middle =>
    constructor
    · exact fun rest => ⟨a, middle, rfl, rest⟩
    · rintro ⟨a', middle', same, rest⟩
      cases same
      exact rest
  | error error middle =>
    constructor
    · nofun
    · rintro ⟨a', middle', same, _⟩
      cases same

end Runs

/-! ## Ends of statements -/

def dropTerminators (stream : List PlacedToken) : List PlacedToken :=
  stream.dropWhile fun placed => isTerminator placed.token

theorem dropTerminators_cons (terminates : isTerminator first.token = true) :
    dropTerminators (first :: rest) = dropTerminators rest :=
  List.dropWhile_cons_of_pos terminates

theorem dropTerminators_cons_of_not (goesOn : ¬isTerminator first.token = true) :
    dropTerminators (first :: rest) = first :: rest :=
  List.dropWhile_cons_of_neg goesOn

theorem dropTerminators_dropTerminators (stream : List PlacedToken) :
    dropTerminators (dropTerminators stream) = dropTerminators stream := by
  induction stream with
  | nil => rfl
  | cons first rest ih =>
    by_cases terminates : isTerminator first.token = true
    · rw [dropTerminators_cons terminates, ih]
    · rw [dropTerminators_cons_of_not terminates, dropTerminators_cons_of_not terminates]

theorem dropTerminators_after {stream : List PlacedToken}
    (terminates : isTerminator (headToken stream) = true) :
    dropTerminators (after stream) = dropTerminators stream := by
  match stream, terminates with
  | [_], _ => rfl
  | first :: next :: rest, terminates =>
    have terminates : isTerminator first.token = true := terminates
    rw [dropTerminators_cons terminates]
    rfl

/-! ## Runs without errors -/

section Runs

variable {α β : Type} {session : Session} {xs xs' : List PlacedToken}

theorem liftReader_eq_ok_iff {reader : Reader α} {a : α} :
    liftReader reader ⟨xs, errors⟩ = .ok a session ↔
      ∃ xs', reader xs = .ok a xs' ∧ session = ⟨xs', errors⟩ := by
  unfold liftReader
  cases reader xs with
  | ok value tokens =>
    constructor
    · intro ran
      cases ran
      exact ⟨tokens, rfl, rfl⟩
    · rintro ⟨_, ran, rfl⟩
      cases ran
      rfl
  | error error tokens =>
    constructor
    · nofun
    · rintro ⟨_, ran, _⟩
      cases ran

theorem liftReader_bind (x : Reader α) (next : α → Reader β) :
    liftReader (x >>= next) = liftReader x >>= fun a => liftReader (next a) := by
  funext session
  show liftReader (EStateM.bind x next) session = EStateM.bind (liftReader x) _ session
  unfold liftReader EStateM.bind
  cases ran : x session.tokens <;> simp only [ran]

variable {parser : Parser (List α)} {closers : List Token}

theorem orRecover_eq_ok {values : List α} {session' : Session}
    (ran : parser session = .ok values session') :
    orRecover parser closers session = .ok values session' := by
  refine run_bind_eq_ok_iff.mpr ⟨.ok values, session', ?_, rfl⟩
  rw [attempt, ran]

theorem orRecover_of_error {d : Diagnostic} (failed : parser session = .error d ⟨xs, errors⟩) :
    orRecover parser closers session =
      .ok [] ⟨dropTerminators (xs.dropWhile fun placed =>
        !(isStop placed.token || closers.contains placed.token)), errors ++ [d]⟩ := by
  have attempted : attempt parser session = .ok (.error d) ⟨xs, errors⟩ := by
    rw [attempt, failed]
  exact run_bind_eq_ok_iff.mpr ⟨_, _, attempted, rfl⟩

theorem attempt_liftReader {reader : Reader α} {a : α} (ran : reader xs = .ok a xs') :
    attempt (liftReader reader) ⟨xs, errors⟩ = .ok (.ok a) ⟨xs', errors⟩ := by
  rw [attempt, liftReader, ran]

theorem expectTerminator_run (stream : List PlacedToken) :
    expectTerminator stream =
      match headToken stream with
      | .newline | .semicolon => .ok () (after stream)
      | .eof | .endWord | .elseWord => .ok () stream
      | found => .error ⟨.grammar (.expectedTerminator found), some (headLoc stream)⟩ stream := by
  show (match headToken stream with
    | .newline | .semicolon => discard advance
    | .eof | .endWord | .elseWord => pure ()
    | found => do fail (.expectedTerminator found) (← here) : Reader Unit) stream = _
  cases headToken stream <;> rfl

end Runs

namespace Grammar

/-! ## Parts of statements -/

def conditionPart : Reader (Option Phrase) := do
  if (← peek) = .ifWord then
    discard advance
    return some (← expression)
  else
    return none

/-- An action of a trigger block, on its own line. -/
def actionPart : Reader (List TriggerArg) := do
  let read ← triggerArgument
  expectTerminator
  return [read.1]

/-- The condition of a block, up to the word that opens its body. -/
def conditionHead : Reader Phrase := do
  let condition ← expression
  discard (expect .thenWord)
  return condition

/-- What a trigger block waits for, and where the word stands that opens its body. -/
def triggerHead : Reader (TriggerArg × Location) := do
  let read ← triggerArgument
  return (read.1, ← expect .doWord)

/-- The end of a block that is dropped. -/
def brokenEnd : Parser (List Stmt) := do
  discard (expect .endWord : Reader Location)
  expectTerminator
  return []

/-! ## Lists of items -/

section Gather

variable {α : Type} {closes : Token → Bool} {item more : Parser (List α)}

/-- An item and then more of them, unless a token closes the list. -/
def gather (closes : Token → Bool) (item more : Parser (List α)) : Parser (List α) := do
  skipTerminators
  if closes (← (peek : Reader Token)) then
    return []
  else
    let first ← item
    return first ++ (← more)

theorem gather_of_closes {xs : List PlacedToken}
    (closed : closes (headToken (dropTerminators xs)) = true) :
    gather closes item more ⟨xs, errors⟩ = .ok [] ⟨dropTerminators xs, errors⟩ := by
  show (if closes (headToken (dropTerminators xs)) = true then _ else _ : Parser (List α)) _ = _
  rw [if_pos closed]
  rfl

theorem gather_of_not_closes {xs : List PlacedToken}
    (goesOn : ¬closes (headToken (dropTerminators xs)) = true) :
    gather closes item more ⟨xs, errors⟩ =
      (item >>= fun first => more >>= fun rest => pure (first ++ rest))
        ⟨dropTerminators xs, errors⟩ := by
  show (if closes (headToken (dropTerminators xs)) = true then _ else _ : Parser (List α)) _ = _
  rw [if_neg goesOn]
  rfl

/-- The ends of statements before a list say nothing. -/
theorem gather_congr {xs ys : List PlacedToken} (same : dropTerminators xs = dropTerminators ys)
    (errors : List Diagnostic) :
    gather closes item more ⟨xs, errors⟩ = gather closes item more ⟨ys, errors⟩ := by
  by_cases closed : closes (headToken (dropTerminators xs)) = true
  · rw [gather_of_closes closed, gather_of_closes (same ▸ closed), same]
  · rw [gather_of_not_closes closed, gather_of_not_closes (same ▸ closed), same]

end Gather

theorem blockBody_succ (fuel : Nat) :
    blockBody (fuel + 1) =
      gather closesBlock (orRecover (statement (blockBody fuel) false) [.endWord, .elseWord])
        (blockBody fuel) :=
  rfl

theorem triggerActions_succ (fuel : Nat) :
    triggerActions (fuel + 1) =
      gather (fun t => t = .endWord ∨ t = .eof) (orRecover (liftReader actionPart) [.endWord])
        (triggerActions fuel) := by
  show (skipTerminators >>= fun _ => liftReader peek >>= fun t => _ : Parser _) =
    (skipTerminators >>= fun _ => liftReader peek >>= fun t => _ : Parser _)
  congr
  funext _
  congr
  funext t
  cases t <;> rfl

section Bodies

variable {body : Parser (List Stmt)}

theorem programBody_succ (fuel : Nat) :
    programBody body (fuel + 1) =
      gather (fun t => t = .eof) (orRecover (statement body true) [])
        (programBody body fuel) := by
  show (skipTerminators >>= fun _ => liftReader peek >>= fun t => _ : Parser _) =
    (skipTerminators >>= fun _ => liftReader peek >>= fun t => _ : Parser _)
  congr
  funext _
  congr
  funext t
  cases t <;> rfl

theorem programBody_congr {xs ys : List PlacedToken}
    (same : dropTerminators xs = dropTerminators ys) {fuel : Nat} (some : 0 < fuel)
    (errors : List Diagnostic) :
    programBody body fuel ⟨xs, errors⟩ = programBody body fuel ⟨ys, errors⟩ := by
  obtain ⟨fuel, rfl⟩ := Nat.exists_eq_add_one_of_ne_zero (Nat.ne_of_gt some)
  rw [programBody_succ, gather_congr same]

end Bodies

end Grammar

open Grammar in
theorem parseTokens_eq_iff {xs : List PlacedToken} {program : List Stmt} :
    parseTokens xs = (program, []) ↔
      ∃ rest, programBody (blockBody xs.length) xs.length ⟨xs, []⟩ = .ok program ⟨rest, []⟩ := by
  have sameRun : Grammar.program ⟨xs, []⟩ = programBody (blockBody xs.length) xs.length ⟨xs, []⟩ := rfl
  rw [parseTokens, sameRun]
  cases programBody (blockBody xs.length) xs.length ⟨xs, []⟩ with
  | ok statements session =>
    obtain ⟨rest, errors⟩ := session
    constructor
    · intro parsed
      cases parsed
      exact ⟨rest, rfl⟩
    · rintro ⟨_, ran⟩
      cases ran
      rfl
  | error error session =>
    constructor
    · intro parsed
      simp at parsed
    · rintro ⟨_, ran⟩
      cases ran

end AutomationScript
