import AutomationScript.Proofs.Grammar.MirrorStatements

/-!
# Reading the same script in two places

Two token streams that differ in their locations only are read as the same statements, with the
same errors (`same_parseTokens`).
-/

namespace AutomationScript

open List AutomationScript.Reader

/-! ## Two computations -/

/-- From related states two computations end in the same way. -/
def Alongside {ε σ α β : Type} (states : σ → σ → Prop) (blames : ε → ε → Prop)
    (post : α → β → Prop) (x : EStateM ε σ α) (y : EStateM ε σ β) : Prop :=
  ∀ s t, states s t → Ends states states blames post (x s) (y t)

namespace Alongside

variable {ε σ α β γ δ : Type} {states : σ → σ → Prop} {blames : ε → ε → Prop}
  {post : α → β → Prop} {after : γ → δ → Prop} {x : EStateM ε σ α} {y : EStateM ε σ β}

theorem pure {a : α} {b : β} (holds : post a b) :
    Alongside states blames post (Pure.pure a : EStateM ε σ α) (Pure.pure b) :=
  fun _ _ kept => .ok holds kept

theorem get : Alongside states blames states (get : EStateM ε σ σ) get :=
  fun _ _ kept => .ok kept kept

theorem modify {f g : σ → σ} (kept : ∀ s t, states s t → states (f s) (g t)) :
    Alongside states blames (fun _ _ => True) (modify f : EStateM ε σ PUnit) (modify g) :=
  fun s t related => .ok True.intro (kept s t related)

variable {next : α → EStateM ε σ γ}

theorem bind {next' : β → EStateM ε σ δ} (first : Alongside states blames post x y)
    (continued : ∀ a b, post a b → Alongside states blames after (next a) (next' b)) :
    Alongside states blames after (x >>= next) (y >>= next') :=
  fun s t related => (first s t related).bind fun a b s t holds => continued a b holds s t

/-- What is read is the same in both. -/
theorem look {y : EStateM ε σ α} {next' : α → EStateM ε σ δ}
    (first : Alongside states blames Eq x y)
    (continued : ∀ a, Alongside states blames after (next a) (next' a)) :
    Alongside states blames after (x >>= next) (y >>= next') :=
  first.bind fun a _ same => same ▸ continued a

theorem discard (first : Alongside states blames post x y) :
    Alongside states blames (fun _ _ => True) (discard x) (discard y) :=
  first.bind fun _ _ _ => pure True.intro

end Alongside

/-! ## Streams -/

inductive Blamed (slack : Slack) : Diagnostic → Diagnostic → Prop
  | mk (error : GrammarError) {loc loc' : Location} (placed : slack.places (some loc) (some loc')) :
      Blamed slack ⟨.grammar error, some loc⟩ ⟨.grammar error, some loc'⟩

/-- Both streams have the same tokens at places that correspond, up to the end of the input. -/
inductive Streams (slack : Slack) : List PlacedToken → List PlacedToken → Prop
  | last {loc loc' : Location} (placed : slack.places (some loc) (some loc')) :
      Streams slack [⟨.eof, loc⟩] [⟨.eof, loc'⟩]
  | cons (t : Token) {loc loc' : Location} {xs ys : List PlacedToken}
      (placed : slack.places (some loc) (some loc')) (rest : Streams slack xs ys) :
      Streams slack (⟨t, loc⟩ :: xs) (⟨t, loc'⟩ :: ys)

variable {slack : Slack}

namespace Streams

variable {xs ys : List PlacedToken}

theorem headToken_eq (streams : Streams slack xs ys) : headToken ys = headToken xs := by
  cases streams <;> rfl

theorem headLoc (streams : Streams slack xs ys) :
    slack.places (some (headLoc xs)) (some (headLoc ys)) := by
  cases streams <;> assumption

theorem second_eq (streams : Streams slack xs ys) :
    headToken (ys.drop 1) = headToken (xs.drop 1) := by
  cases streams with
  | last _ => rfl
  | cons _ _ rest => exact rest.headToken_eq

theorem length_eq (streams : Streams slack xs ys) : ys.length = xs.length := by
  induction streams with
  | last _ => rfl
  | cons _ _ _ ih => rw [length_cons, length_cons, ih]

theorem after (streams : Streams slack xs ys) : Streams slack (after xs) (after ys) := by
  cases streams with
  | last placed => exact .last placed
  | cons _ _ rest =>
    cases rest with
    | last placed => exact .last placed
    | cons t placed rest => exact .cons t placed rest

theorem dropWhile (streams : Streams slack xs ys) (test : Token → Bool)
    (stays : test .eof = false) :
    Streams slack (xs.dropWhile fun placed => test placed.token)
      (ys.dropWhile fun placed => test placed.token) := by
  induction streams with
  | last placed =>
    rw [dropWhile_cons, dropWhile_cons]
    dsimp only
    rw [stays]
    exact .last placed
  | cons t placed rest ih =>
    rw [dropWhile_cons, dropWhile_cons]
    dsimp only
    split
    · exact ih
    · exact .cons t placed rest

end Streams

/-- The streams go on in the same way behind a stop. -/
def Splice.whole (slack : Slack) : Splice where
  slack := slack
  Stops xs ys := Streams slack xs ys ∧ isStop (headToken xs) = true
  nonempty := by
    rintro _ _ ⟨_ | _, _⟩ <;> exact ⟨cons_ne_nil _ _, cons_ne_nil _ _⟩
  stops := by
    rintro xs ys ⟨streams, stops⟩
    exact ⟨stops, streams.headToken_eq ▸ stops⟩

variable {xs ys : List PlacedToken}

theorem Streams.exists_shows (streams : Streams slack xs ys) :
    ∃ t n, (Splice.whole slack).Shows t n xs ys := by
  induction streams with
  | last placed => exact ⟨_, _, .stop ⟨.last placed, rfl⟩⟩
  | cons t placed rest ih =>
    cases stops : isStop t with
    | true => exact ⟨_, _, .stop ⟨.cons t placed rest, stops⟩⟩
    | false =>
      obtain ⟨_, _, shown⟩ := ih
      exact ⟨_, _, .token stops placed shown⟩

namespace Splice

variable {t : Token} {n spent : Nat} {xs ys : List PlacedToken}

theorem Shows.streams (shown : (whole slack).Shows t n xs ys) : Streams slack xs ys := by
  induction shown with
  | stop stops => exact stops.1
  | token _ placed _ ih => exact .cons _ placed ih

theorem Blames.blamed {d d' : Diagnostic} (blames : (whole slack).Blames d d') :
    Blamed slack d d' := by
  cases blames with
  | same error placed => exact .mk error placed
  | stop _ stops =>
    rw [stops.1.headToken_eq]
    exact .mk _ stops.1.headLoc

theorem Left.streams {closed : Bool} (left : (whole slack).Left closed n spent xs ys) :
    Streams slack xs ys := by
  cases left with
  | shown shown _ _ => exact shown.streams
  | stop _ stops =>
    unfold passStop
    rw [stops.1.headToken_eq]
    split
    · exact stops.1.after
    · exact stops.1

end Splice

/-! ## Readers -/

abbrev Reads {α β : Type} (slack : Slack) (post : α → β → Prop) (x : Reader α) (y : Reader β) :
    Prop :=
  Alongside (Streams slack) (Blamed slack) post x y

namespace Reads

variable {α β : Type} {post : α → β → Prop}

theorem of_inStep {closed : Bool} {spent : Nat} {x : Reader α} {y : Reader β}
    (inStep : ∀ n, (Splice.whole slack).InStep closed n spent (fun _ => True) post x y) :
    Reads slack post x y := by
  intro xs ys streams
  obtain ⟨t, n, shown⟩ := streams.exists_shows
  exact (inStep n n (Nat.le_refl n) t xs ys shown True.intro).imp (·.streams)
    (fun ⟨_, _, shown⟩ => shown.streams) (·.blamed) id

theorem peekSecond : Reads slack Eq peekSecond peekSecond :=
  fun _ _ streams => .ok streams.second_eq.symm streams

theorem peek : Reads slack Eq peek peek :=
  fun _ _ streams => .ok streams.headToken_eq.symm streams

theorem here : Reads slack (fun loc loc' => slack.places (some loc) (some loc')) here here :=
  fun _ _ streams => .ok streams.headLoc streams

theorem advance :
    Reads slack (fun loc loc' => slack.places (some loc) (some loc')) advance advance :=
  fun _ _ streams => .ok streams.headLoc streams.after

theorem fail (error : GrammarError) {loc loc' : Location}
    (placed : slack.places (some loc) (some loc')) :
    Reads slack post (fail error loc : Reader α) (Reader.fail error loc' : Reader β) :=
  fun _ _ streams => .error (.mk error placed) streams

theorem unexpected : Reads slack post (unexpected : Reader α) (Reader.unexpected : Reader β) :=
  peek.look fun _ => here.bind fun _ _ placed => fail _ placed

theorem expect {wanted : Token} (goesOn : isStop wanted = false) :
    Reads slack (fun loc loc' => slack.places (some loc) (some loc')) (expect wanted)
      (Reader.expect wanted) :=
  .of_inStep fun _ => .expect goesOn

theorem skipTerminators : Reads slack (fun _ _ => True) skipTerminators skipTerminators :=
  .modify fun _ _ streams => streams.dropWhile isTerminator rfl

theorem expectTerminator : Reads slack (fun _ _ => True) expectTerminator expectTerminator := by
  refine peek.look fun token => ?_
  split
  · exact advance.discard
  · exact advance.discard
  · exact .pure True.intro
  · exact .pure True.intro
  · exact .pure True.intro
  · exact here.bind fun _ _ placed => fail _ placed

theorem skipTo (closers : List Token) :
    Reads slack (fun _ _ => True) (skipTo closers) (Reader.skipTo closers) :=
  .modify fun _ _ streams =>
    streams.dropWhile (fun token => !(isStop token || closers.contains token)) rfl

theorem recover (closers : List Token) :
    Reads slack (fun _ _ => True) (recover closers) (Reader.recover closers) :=
  (skipTo closers).bind fun _ _ _ => skipTerminators

theorem recoverHead (opener : Token) :
    Reads slack (fun _ _ => True) (recoverHead opener) (Reader.recoverHead opener) := by
  refine (skipTo [opener]).bind fun _ _ _ => peek.look fun token => ?_
  split
  · exact advance.discard
  · exact .pure True.intro

end Reads

/-! ## Parsers -/

/-- The rest of the tokens and the errors reported so far are the same but for places. -/
structure Sessions (slack : Slack) (session session' : Session) : Prop where
  tokens : Streams slack session.tokens session'.tokens
  errors : Forall₂ (Blamed slack) session.errors session'.errors

abbrev Parses {α β : Type} (slack : Slack) (post : α → β → Prop) (x : Parser α) (y : Parser β) :
    Prop :=
  Alongside (Sessions slack) (Blamed slack) post x y

namespace Parses

open AutomationScript.Parser

variable {α β : Type} {post : α → β → Prop}

theorem lift {x : Reader α} {y : Reader β} (reads : Reads slack post x y) :
    Parses slack post (liftReader x) (liftReader y) := by
  intro session session' sessions
  have ended := reads _ _ sessions.tokens
  unfold liftReader
  generalize x session.tokens = ran at ended ⊢
  generalize y session'.tokens = ran' at ended ⊢
  cases ended with
  | ok holds kept => exact .ok holds ⟨kept, sessions.errors⟩
  | error blamed kept => exact .error blamed ⟨kept, sessions.errors⟩

theorem report {d d' : Diagnostic} (blamed : Blamed slack d d') :
    Parses slack (fun _ _ => True) (report d) (Parser.report d') :=
  .modify fun _ _ sessions =>
    ⟨sessions.tokens, rel_append sessions.errors (.cons blamed .nil)⟩

theorem errorCount : Parses slack Eq errorCount errorCount :=
  fun _ _ sessions => .ok sessions.errors.length_eq sessions

/-- Two attempts succeed with related results or fail for the same reason. -/
inductive Attempted (slack : Slack) (post : α → β → Prop) :
    Except Diagnostic α → Except Diagnostic β → Prop
  | ok {a : α} {b : β} (holds : post a b) : Attempted slack post (.ok a) (.ok b)
  | error {d d' : Diagnostic} (blamed : Blamed slack d d') :
      Attempted slack post (.error d) (.error d')

theorem attempt {x : Parser α} {y : Parser β} (parses : Parses slack post x y) :
    Parses slack (Attempted slack post) (attempt x) (Parser.attempt y) := by
  intro session session' sessions
  have ended := parses _ _ sessions
  unfold Parser.attempt
  generalize x session = ran at ended ⊢
  generalize y session' = ran' at ended ⊢
  cases ended with
  | ok holds kept => exact .ok (.ok holds) kept
  | error blamed kept => exact .ok (.error blamed) kept

theorem orRecover {related : α → β → Prop} {x : Parser (List α)} {y : Parser (List β)}
    (closers : List Token) (parses : Parses slack (Forall₂ related) x y) :
    Parses slack (Forall₂ related) (orRecover x closers) (Parser.orRecover y closers) := by
  refine parses.attempt.bind fun outcome outcome' attempted => ?_
  cases attempted with
  | ok holds => exact .pure holds
  | error blamed =>
    refine (report blamed).bind fun _ _ _ => ?_
    exact (lift (Reads.recover closers)).bind fun _ _ _ => .pure .nil

theorem gather {related : α → β → Prop} (closes : Token → Bool) {item more : Parser (List α)}
    {item' more' : Parser (List β)} (items : Parses slack (Forall₂ related) item item')
    (rest : Parses slack (Forall₂ related) more more') :
    Parses slack (Forall₂ related) (Grammar.gather closes item more)
      (Grammar.gather closes item' more') := by
  refine (lift .skipTerminators).bind fun _ _ _ => (lift .peek).look fun token => ?_
  split
  · exact .pure .nil
  · exact items.bind fun _ _ first => rest.bind fun _ _ rest => .pure (rel_append first rest)

theorem terminated {a : α} {b : β} (holds : post a b) :
    Parses slack post (do Reader.expectTerminator; return a) (do Reader.expectTerminator; return b) :=
  (lift Reads.expectTerminator).bind fun _ _ _ => .pure holds

end Parses

/-! ## Statements -/

namespace Grammar

open AutomationScript.Parser

theorem parses_triggerActions {fuel : Nat} :
    Parses slack (Forall₂ (TriggerArg.Matches slack)) (triggerActions fuel)
      (triggerActions fuel) := by
  induction fuel with
  | zero => exact .pure .nil
  | succ fuel ih =>
    have action : Reads slack (Forall₂ (TriggerArg.Matches slack)) actionPart actionPart := by
      refine (Reads.of_inStep fun _ => mirrors_triggerArgument).bind fun arg arg' args => ?_
      exact Reads.expectTerminator.bind fun _ _ _ => .pure (.cons args.1 .nil)
    rw [triggerActions_succ]
    exact .gather _ (.orRecover _ (.lift action)) ih

theorem parses_triggerBlock {defines : Stmt → Stmt → Prop} :
    Parses slack (Forall₂ (Stmt.Same slack defines)) triggerBlock triggerBlock := by
  refine Parses.errorCount.look fun before => ?_
  refine (Parses.lift .advance).bind fun start start' starts => ?_
  have head : Reads slack (fun read read' => read.1.Matches slack read'.1 ∧
      slack.places (some read.2) (some read'.2)) triggerHead triggerHead := by
    refine (Reads.of_inStep fun _ => mirrors_triggerArgument).bind fun arg arg' args => ?_
    exact (Reads.expect rfl).bind fun _ _ opening => .pure ⟨args.1, opening⟩
  refine (Parses.lift head).attempt.bind fun outcome outcome' attempted => ?_
  have actions : ∀ {session session' : Session}, Sessions slack session session' →
      Parses slack (Forall₂ (TriggerArg.Matches slack)) (triggerActions session.tokens.length)
        (triggerActions session'.tokens.length) := by
    intro session session' sessions
    rw [sessions.tokens.length_eq]
    exact parses_triggerActions
  cases attempted with
  | error blamed =>
    refine (Parses.report blamed).bind fun _ _ _ => ?_
    refine (Parses.lift (.recoverHead _)).bind fun _ _ _ => ?_
    refine Alongside.get.bind fun _ _ sessions => (actions sessions).bind fun _ _ _ => ?_
    exact (Parses.lift (.expect rfl)).bind fun _ _ _ => Parses.terminated .nil
  | ok holds =>
    refine Alongside.get.bind fun _ _ sessions => (actions sessions).bind fun _ _ acts => ?_
    refine (Parses.lift (.expect rfl)).bind fun closing closing' closings => ?_
    refine Parses.errorCount.look fun reported => ?_
    split
    · exact Parses.terminated .nil
    · cases acts with
      | nil => exact Parses.lift (.fail _ (slack.union holds.2 closings))
      | cons first rest =>
        exact Parses.terminated (.cons (.trigger holds.1 (.cons first rest)
          ⟨slack.union starts closings, .inr rfl⟩) .nil)

section Blocks

variable {body body' : Parser (List Stmt)} (bodies : Parses slack (SameProgram slack) body body')

include bodies

theorem parses_brokenBlock :
    Parses slack (SameProgram slack) (brokenBlock body) (brokenBlock body') := by
  have close : Parses slack (SameProgram slack) brokenEnd brokenEnd :=
    (Parses.lift (.expect rfl)).discard.bind fun _ _ _ => Parses.terminated .nil
  refine bodies.discard.bind fun _ _ _ => (Parses.lift .peek).look fun token => ?_
  dsimp only
  split
  · refine (Parses.lift .advance).discard.bind fun _ _ _ => ?_
    exact bodies.discard.bind fun _ _ _ => close
  · exact close

/-- The negated condition stands where the condition does. -/
theorem parses_elsePart {condition condition' : Expr}
    (conditions : condition.Same slack condition') :
    Parses slack (SameProgram slack) (elsePart body condition) (elsePart body' condition') := by
  refine (Parses.lift .peek).look fun token => ?_
  split
  · refine (Parses.lift .advance).bind fun loc loc' placed => ?_
    refine bodies.bind fun statements statements' inside => .pure ?_
    refine .cons (.closeBlock ⟨placed, .inr rfl⟩) (.cons (.openBlock ?_ ⟨placed, .inr rfl⟩) inside)
    exact .ofCompound (.cons conditions .nil) conditions.loc
  · exact .pure .nil

theorem parses_conditionBlock :
    Parses slack (SameProgram slack) (conditionBlock body) (conditionBlock body') := by
  refine (Parses.lift .advance).bind fun start start' starts => ?_
  have head : Reads slack (Phrase.Same slack) conditionHead conditionHead := by
    refine (Reads.of_inStep fun _ => mirrors_expression).bind fun _ _ conditions => ?_
    exact (Reads.expect rfl).discard.bind fun _ _ _ => .pure conditions
  refine (Parses.lift head).attempt.bind fun outcome outcome' attempted => ?_
  cases attempted with
  | error blamed =>
    refine (Parses.report blamed).bind fun _ _ _ => ?_
    exact (Parses.lift (.recoverHead _)).bind fun _ _ _ => parses_brokenBlock bodies
  | ok conditions =>
    refine bodies.bind fun statements statements' inside => ?_
    refine (parses_elsePart bodies conditions.expr).bind fun otherwise otherwise' others => ?_
    refine (Parses.lift (.expect rfl)).bind fun loc loc' placed => ?_
    refine Parses.terminated (rel_append (rel_append (.cons ?_ inside) others)
      (.cons (.closeBlock ⟨placed, .inr rfl⟩) .nil))
    exact .openBlock conditions.expr ⟨slack.union starts conditions.loc, .inr rfl⟩

theorem parses_definition :
    Parses slack (Stmt.Same slack (Stmt.DefinesSame slack)) (definition body)
      (definition body') := by
  refine (Parses.lift .advance).bind fun start start' starts => ?_
  refine (Parses.lift (.of_inStep fun _ => .expectIdent)).bind ?_
  rintro ⟨name, nameLoc⟩ ⟨_, nameLoc'⟩ ⟨rfl, named⟩
  refine (Parses.lift .peek).look fun token => ?_
  split
  · refine (Parses.lift .advance).discard.bind fun _ _ _ => ?_
    refine (Parses.lift (.of_inStep fun _ => mirrors_expression)).bind fun _ _ values => ?_
    exact Parses.terminated (.defineExpr ⟨⟨rfl, named⟩, values.expr⟩)
  · refine (Parses.lift .advance).discard.bind fun _ _ _ => ?_
    refine bodies.bind fun statements statements' inside => ?_
    refine (Parses.lift (.expect rfl)).bind fun _ _ _ => ?_
    refine Parses.terminated (.defineBlock ⟨⟨rfl, named⟩, ?_⟩)
    exact inside.imp fun _ _ same => same.mono id id id fun _ => trivial
  · refine (Parses.lift .here).bind fun _ _ placed => ?_
    exact Parses.lift (.fail _ (slack.union named placed))

theorem parses_statement (topLevel : Bool) :
    Parses slack (SameProgram slack) (statement body topLevel) (statement body' topLevel) := by
  have single : ∀ {x : Reader Stmt}, Reads slack (Stmt.Same slack (Stmt.DefinesSame slack)) x x →
      Parses slack (SameProgram slack) (do return [← x]) (do return [← x]) :=
    fun reads => (Parses.lift reads).bind fun _ _ same => .pure (.cons same .nil)
  refine (Parses.lift .peek).look fun token => ?_
  split
  · exact parses_conditionBlock bodies
  · exact parses_triggerBlock
  · refine (Parses.lift .here).bind fun start start' starts => ?_
    refine (parses_definition bodies).bind fun s s' same => ?_
    cases topLevel with
    | true => exact .pure (.cons same .nil)
    | false => exact Parses.lift (.fail _ starts)
  · apply single
    refine Reads.advance.bind fun start start' starts => ?_
    refine (Reads.of_inStep fun _ => .expectIdent).bind ?_
    rintro ⟨name, loc⟩ ⟨_, loc'⟩ ⟨rfl, placed⟩
    exact Reads.expectTerminator.bind fun _ _ _ =>
      .pure (.use ⟨rfl, placed⟩ ⟨slack.union starts placed, .inr rfl⟩)
  · refine (Parses.lift .peekSecond).look fun second => ?_
    split
    · exact single (.of_inStep fun _ => completes_inlineTrigger)
    · exact single (.of_inStep fun _ => completes_assignment)
  · exact Parses.lift .unexpected

theorem parses_programBody (fuel : Nat) :
    Parses slack (SameProgram slack) (programBody body fuel) (programBody body' fuel) := by
  induction fuel with
  | zero => exact .pure .nil
  | succ fuel ih =>
    rw [programBody_succ, programBody_succ]
    exact .gather _ (.orRecover _ (parses_statement bodies true)) ih

end Blocks

theorem parses_blockBody (fuel : Nat) :
    Parses slack (SameProgram slack) (blockBody fuel) (blockBody fuel) := by
  induction fuel with
  | zero => exact .pure .nil
  | succ fuel ih =>
    rw [blockBody_succ]
    exact .gather _ (.orRecover _ (parses_statement ih false)) ih

theorem parses_program : Parses slack (SameProgram slack) program program := by
  refine Alongside.get.bind fun session session' sessions => ?_
  rw [sessions.tokens.length_eq]
  exact parses_programBody (parses_blockBody _) _

end Grammar

/-- Streams that correspond are read as the same statements, with the same errors. -/
theorem same_parseTokens (streams : Streams slack xs ys) :
    SameProgram slack (parseTokens xs).1 (parseTokens ys).1 ∧
      Forall₂ (Blamed slack) (parseTokens xs).2 (parseTokens ys).2 := by
  have ended := Grammar.parses_program ⟨xs, []⟩ ⟨ys, []⟩ ⟨streams, .nil⟩
  unfold parseTokens
  generalize Grammar.program ⟨xs, []⟩ = ran at ended ⊢
  generalize Grammar.program ⟨ys, []⟩ = ran' at ended ⊢
  cases ended with
  | ok same kept => exact ⟨same, kept.errors⟩
  | error blamed kept => exact ⟨.nil, rel_append kept.errors (.cons blamed .nil)⟩

end AutomationScript
