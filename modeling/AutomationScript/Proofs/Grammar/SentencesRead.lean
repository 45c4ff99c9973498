import AutomationScript.Proofs.Grammar.Sentences

/-!
# Reading statements by the rules

What the rules form is read (`Forms.accepted`), so that a script is read without an error exactly if
its tokens form statements (`parseTokens_iff_forms`).  Parts of a script may report errors here, so
that the lemmas serve for blocks with a broken body as well.
-/

namespace AutomationScript

open List AutomationScript.Reader AutomationScript.Parser

/-! ## Parsers -/

namespace Accepts

variable {α : Type} {tokens : List Token} {follow : Token → Prop} {post : α → Prop}
  {messages : List String}

theorem congr {σ : Type} [Cursor σ] {x y : EStateM Diagnostic σ α}
    (accepts : Accepts x tokens follow post messages)
    (same : ∀ s rest, Before s tokens follow rest → y s = x s) :
    Accepts y tokens follow post messages := by
  intro s rest before
  rw [same s rest before]
  exact accepts s rest before

theorem lift {reader : Reader α} (accepts : Accepts reader tokens follow post []) :
    Accepts (liftReader reader) tokens follow post [] := by
  rintro ⟨stream, errors⟩ rest ⟨some, follows, taken⟩
  obtain ⟨a, _, ran, rfl, _, holds⟩ := accepts stream rest ⟨some, follows, taken⟩
  exact ⟨a, ⟨_, errors⟩, liftReader_eq_ok_iff.mpr ⟨_, ran, rfl⟩, rfl, (append_nil _).symm,
    holds⟩

theorem attempt {parser : Parser α} (accepts : Accepts parser tokens follow post messages) :
    Accepts (attempt parser) tokens follow (fun tried => ∃ a, tried = .ok a ∧ post a) messages := by
  intro session rest before
  obtain ⟨a, session', ran, isRest, told, holds⟩ := accepts session rest before
  exact ⟨.ok a, session', by rw [Parser.attempt, ran], isRest, told, a, rfl, holds⟩

theorem counted {β : Type} {more : List Token} {parser : Parser α} {next : Nat → α → Parser β}
    {after : β → Prop} (first : Accepts parser tokens (opens more follow) post [])
    (second : ∀ a, post a →
      Accepts (errorCount >>= fun before => next before a) more follow after messages) :
    Accepts (errorCount >>= fun before => parser >>= next before) (tokens ++ more) follow after
      messages := by
  intro session rest before
  obtain ⟨between, beforeFirst, beforeSecond⟩ := before.split
  obtain ⟨a, middle, ran, isMiddle, told, holds⟩ := first session between beforeFirst
  obtain ⟨b, session', nextRan, isRest, toldMore, holdsAfter⟩ :=
    second a holds middle rest (beforeSecond middle isMiddle)
  have same : middle.errors.length = session.errors.length := by
    simpa [Cursor.messages] using congrArg List.length told
  rw [append_nil] at told
  refine ⟨b, session', run_bind_eq_ok_iff.mpr ⟨session.errors.length, session, rfl, ?_⟩, isRest,
    told ▸ toldMore, holdsAfter⟩
  exact run_bind_eq_ok_iff.mpr ⟨a, middle, ran, same ▸ nextRan⟩

theorem orRecover {parser : Parser (List α)} {post : List α → Prop}
    (accepts : Accepts parser tokens follow post messages) (closers : List Token) :
    Accepts (orRecover parser closers) tokens follow post messages := by
  intro session rest before
  obtain ⟨values, session', ran, others⟩ := accepts session rest before
  exact ⟨values, session', orRecover_eq_ok ran, others⟩

end Accepts

namespace Grammar

/-- The marks end a statement: there is one, or what may follow closes a block. -/
inductive Ends : (marks : List Token) → (follow : Token → Prop) → Prop
  | mark {mark : Token} (terminates : isTerminator mark = true) (follow : Token → Prop) :
      Ends [mark] follow
  | closing {follow : Token → Prop} (closes : ∀ t, follow t → closesBlock t = true) :
      Ends [] follow

section Ends

variable {marks : List Token} {follow : Token → Prop} (ends : Ends marks follow)

include ends

theorem Ends.accepts : Accepts expectTerminator marks follow (fun _ => True) [] := by
  cases ends with
  | mark terminates =>
    refine .peek ?_
    cases ‹Token› <;> first | exact .discard .advance | cases terminates
  | closing closes =>
    refine .peek_end fun t follows => ?_
    have closed := closes t follows
    cases t <;> first | exact .pure trivial | cases closed

theorem Ends.stops {t : Token} (opened : opens marks follow t) :
    Symbol.disjunction.Stops t ∧ t ≠ .ifWord ∧ t ≠ .leftParen := by
  cases ends with
  | mark terminates =>
    cases opened
    cases t <;> first | decide | cases terminates
  | closing closes =>
    have closed := closes t opened
    cases t <;> first | decide | cases closed

theorem Ends.returns {α : Type} {a : α} {post : α → Prop} (holds : post a) :
    Accepts (do expectTerminator; return a : Reader α) marks follow post [] :=
  .bind_last ends.accepts fun _ _ => .pure holds

end Ends

/-! ## Statements without a body -/

section Simple

variable {tokens marks : List Token} {follow : Token → Prop}
variable {target : Expr} {name : String}

theorem Derives.accepts_target (derives : Derives .primary tokens target)
    (isName : headOf tokens = .ident name) :
    Gives Grammar.target Phrase.expr tokens target (· = .eq) := by
  obtain ⟨first, others, rfl, _⟩ := derives.starts
  cases isName
  refine .query (fun _ => rfl) fun s rest before => ?_
  have fits : _ < s.length := before.length_lt
  have isRead : Gives (primary (s.length + 1)) Phrase.expr _ _ _ :=
    (derives.isReached (by omega)).isRead
  -- After a name an operand is a reference.
  refine .congr (isRead.narrow (by rintro _ rfl; rfl)) fun s' rest' before' => ?_
  obtain ⟨taken, whole, isTaken⟩ := before'.taken
  obtain ⟨⟨_, loc⟩, _, rfl, rfl, _⟩ := map_eq_cons_iff.mp isTaken
  obtain rfl : s' = _ := whole
  rfl

theorem Restricts.accepts {condition : Option Expr} (restricts : Restricts tokens condition)
    (ends : Ends marks follow) :
    Accepts conditionPart tokens (opens marks follow)
      (fun phrase? => (phrase?.map Phrase.expr).map Expr.unlocated = condition) [] := by
  cases restricts with
  | never =>
    refine .peek_end fun t opened => ?_
    rw [if_neg (ends.stops opened).2.1]
    exact .pure rfl
  | condition derives =>
    refine .peek (.bind (.discard .advance) fun _ _ => ?_)
    exact .bind_last (derives.gives.narrow fun _ opened => (ends.stops opened).1)
      fun phrase isPhrase => .pure (congrArg some isPhrase)

theorem Argument.accepts {argument : TriggerArg} (isArgument : Argument tokens argument)
    (plain : ∀ t, follow t → t ≠ .leftParen) :
    Accepts triggerArgument tokens follow (fun read => read.1.unlocated = argument) [] := by
  cases isArgument with
  | once kind id =>
    refine .bind (.expectIdent kind) fun _ isKind => .bind_last (.expectIdent id) fun _ isId => ?_
    cases isKind
    cases isId
    refine .peek_end fun t follows => ?_
    rw [if_neg (plain t follows)]
    exact .pure rfl
  | counted kind id count =>
    refine .bind (.expectIdent kind) fun _ isKind => .bind (.expectIdent id) fun _ isId => ?_
    cases isKind
    cases isId
    refine .peek (.bind (.discard .advance) fun _ _ => .peek ?_)
    refine .bind .advance fun _ _ => .bind_last (.expect .rightParen) fun _ _ => .pure rfl

theorem accepts_assignment {left right restriction : List Token} {value : Expr}
    {condition : Option Expr} (isName : headOf left = .ident name)
    (targetDerives : Derives .primary left target)
    (valueDerives : Derives .disjunction right value)
    (restricts : Restricts restriction condition) (ends : Ends marks follow) :
    Accepts assignment (left ++ .eq :: (right ++ (restriction ++ marks))) follow
      (fun s => s.unlocated = .assign target value condition ⟨none, none⟩) [] := by
  refine .bind ((targetDerives.accepts_target isName).narrow (by rintro _ rfl; rfl))
    fun target' isTarget => ?_
  refine .bind (.discard (.expect .eq)) fun _ _ => ?_
  refine .bind (valueDerives.gives.narrow ?_) fun value' isValue => ?_
  · intro t opened
    cases restricts with
    | never => exact (ends.stops opened).1
    | condition _ =>
      cases opened
      rfl
  refine .bind (restricts.accepts ends) fun condition' isCondition => ?_
  refine .bind_last ends.accepts fun _ _ => ?_
  cases condition' <;> exact .pure (by simp [Stmt.unlocated, isTarget, isValue, ← isCondition])

theorem accepts_inlineTrigger {does waits : List Token} {action condition : TriggerArg}
    (isAction : Argument does action) (isCondition : Argument waits condition)
    (ends : Ends marks follow) :
    Accepts inlineTrigger (does ++ .whenWord :: (waits ++ marks)) follow
      (fun s => s.unlocated = .trigger condition [action] ⟨none, none⟩) [] := by
  refine .bind (isAction.accepts (by rintro _ rfl; decide)) fun action' isAction => ?_
  refine .bind (.discard (.expect .whenWord)) fun _ _ => ?_
  refine .bind (isCondition.accepts fun _ opened => (ends.stops opened).2.2)
    fun condition' isCondition => ends.returns ?_
  simp [Stmt.unlocated, isAction, isCondition]

theorem accepts_useStatement (name : String) (ends : Ends marks follow) :
    Accepts useStatement (.useWord :: .ident name :: marks) follow
      (fun s => s.unlocated = .use ⟨name, none⟩ ⟨none, none⟩) [] := by
  refine .bind .advance fun _ _ => .bind (.expectIdent name) fun _ isName => ends.returns ?_
  cases isName
  rfl

theorem Derives.second (derives : Derives .primary (.ident name :: tokens) target)
    {right : List Token} {t : Token} (opened : opens (tokens ++ .eq :: right) follow t)
    (other : String) : t ≠ .ident other := by
  rintro rfl
  generalize isLeft : Token.ident name :: tokens = left at derives
  cases derives with
  | tighter isNext derives =>
    cases isNext
    obtain ⟨first, others, rfl, isBracket⟩ := derives.starts
    cases isLeft
    cases isBracket
  | binary joins _ _ _ => cases joins
  | subscript base derives =>
    obtain ⟨first, others, rfl, isBracket⟩ := derives.starts
    cases isLeft
    cases opened
    cases isBracket
  | name | dotted =>
    cases isLeft
    cases opened
  | _ => cases isLeft

/-- A statement without a body is read by the reader that its first two tokens choose. -/
theorem Simple.accepts {s : Stmt} (simple : Simple tokens s) (block : Parser (List Stmt))
    (topLevel : Bool) (ends : Ends marks follow) :
    Accepts (statement block topLevel) (tokens ++ marks) follow
      (fun result => result.map Stmt.unlocated = [s]) [] := by
  have one : ∀ {reader : Reader Stmt} {tokens : List Token},
      Accepts reader tokens follow (fun s' => s'.unlocated = s) [] →
        Accepts (do return [← reader] : Parser (List Stmt)) tokens follow
          (fun result => result.map Stmt.unlocated = [s]) [] := fun accepts =>
    .bind_last accepts.lift fun s' isStatement => .pure (congrArg (fun s => [s]) isStatement)
  cases simple with
  | assign isName targetDerives valueDerives restricts =>
    have accepts := one (accepts_assignment isName targetDerives valueDerives restricts ends)
    simp only [append_assoc, cons_append]
    obtain ⟨first, others, rfl, _⟩ := targetDerives.starts
    cases isName
    refine .peek (.peek_second fun second opened => ?_)
    cases second with
    | ident other => exact absurd rfl (targetDerives.second opened other)
    | _ => exact accepts
  | trigger isAction isCondition =>
    have accepts := one (accepts_inlineTrigger isAction isCondition ends)
    simp only [append_assoc, cons_append]
    cases isAction with
    | once kind id | counted kind id =>
      refine .peek (.peek_second ?_)
      rintro _ rfl
      exact accepts
  | use name => exact .peek (one (accepts_useStatement name ends))

end Simple

/-! ## Lists of items -/

section Lists

variable {α : Type} {unlocated : α → α} {closes : Token → Bool} {item more : Parser (List α)}
  {tokens others : List Token} {follow : Token → Prop} {values rest : List α}
  {messages messages' : List String}

/-- Without their locations the values that are read are these. -/
abbrev ReadsAll (unlocated : α → α) (parser : Parser (List α)) (tokens : List Token)
    (follow : Token → Prop) (values : List α) (messages : List String) : Prop :=
  Accepts parser tokens follow (fun result => result.map unlocated = values) messages

/-- An item can start with the token: it is no terminator and does not close the list. -/
def StartsItem (closes : Token → Bool) (token : Token) : Prop :=
  isTerminator token = false ∧ closes token = false

theorem StartsItem.ne_nil (starts : StartsItem closes (headOf tokens))
    (closesEof : closes .eof = true) : tokens ≠ [] := by
  rintro rfl
  have goesOn : closes .eof = false := starts.2
  rw [closesEof] at goesOn
  cases goesOn

theorem accepts_skipTerminators {next : Parser α} {post : α → Prop}
    (accepts : Accepts next tokens follow post messages)
    (goesOn : ∀ t, opens tokens follow t → isTerminator t = false) :
    Accepts (do skipTerminators; next : Parser α) tokens follow post messages := by
  refine accepts.congr fun session rest before => ?_
  have same : dropTerminators session.tokens = session.tokens :=
    dropTerminators_of_not (goesOn _ before.opens)
  change next ⟨dropTerminators session.tokens, session.errors⟩ = _
  rw [same]

theorem reads_gather_nil (closed : ∀ t, follow t → closesBlock t = true ∧ closes t = true) :
    ReadsAll unlocated (gather closes item more) [] follow [] [] := by
  refine accepts_skipTerminators (.peek_end fun t follows => ?_) fun t follows => ?_
  · rw [if_pos (closed t follows).2]
    exact .pure rfl
  · exact isTerminator_of_closesBlock (closed t follows).1

theorem reads_gather_cons (starts : StartsItem closes (headOf tokens)) (nonempty : tokens ≠ [])
    (first : ReadsAll unlocated item tokens (opens others follow) values messages)
    (later : ReadsAll unlocated more others follow rest messages') :
    ReadsAll unlocated (gather closes item more) (tokens ++ others) follow (values ++ rest)
      (messages ++ messages') := by
  obtain ⟨t, tokens, rfl⟩ := exists_cons_of_ne_nil nonempty
  have goesOn : ¬closes t = true := Bool.eq_false_iff.mp starts.2
  refine accepts_skipTerminators (.peek ?_) (by rintro _ rfl; exact starts.1)
  rw [if_neg goesOn]
  refine .bind first fun found isFound => (later.mono fun found' isFound' => ?_).returns
  rw [map_append, isFound, isFound']

theorem reads_gather_skip {mark : Token} (terminates : isTerminator mark = true)
    (reads : ReadsAll unlocated (gather closes item more) tokens follow values messages) :
    ReadsAll unlocated (gather closes item more) (mark :: tokens) follow values messages := by
  rintro ⟨stream, errors⟩ others ⟨some, follows, taken, isStream, isTaken⟩
  obtain ⟨⟨_, loc⟩, taken, rfl, rfl, isTokens⟩ := map_eq_cons_iff.mp isTaken
  obtain rfl : stream = _ := isStream
  rw [cons_append, gather_congr (dropTerminators_cons terminates)]
  exact reads ⟨taken ++ others, errors⟩ others ⟨some, follows, taken, rfl, isTokens⟩

variable {loop parsers : Nat → Parser (List α)}
  (isLoop : ∀ fuel, loop (fuel + 1) = gather closes (parsers fuel) (loop fuel)) {fuel : Nat}

include isLoop

theorem reads_loop_nil (some : 0 < fuel)
    (closed : ∀ t, follow t → closesBlock t = true ∧ closes t = true) :
    ReadsAll unlocated (loop fuel) [] follow [] [] := by
  obtain ⟨less, rfl⟩ := Nat.exists_eq_add_one_of_ne_zero (Nat.ne_of_gt some)
  rw [isLoop]
  exact reads_gather_nil closed

theorem reads_loop_skip {mark : Token} (terminates : isTerminator mark = true) (some : 0 < fuel)
    (reads : ReadsAll unlocated (loop fuel) tokens follow values messages) :
    ReadsAll unlocated (loop fuel) (mark :: tokens) follow values messages := by
  obtain ⟨less, rfl⟩ := Nat.exists_eq_add_one_of_ne_zero (Nat.ne_of_gt some)
  rw [isLoop] at reads ⊢
  exact reads_gather_skip terminates reads

section First

variable (starts : StartsItem closes (headOf tokens)) (closesEof : closes .eof = true)

include starts closesEof

/-- An item with its end, and then the others.  The item has a token, so that the fuel lasts. -/
theorem reads_loop_cons {marks : List Token}
    (enough : (tokens ++ (marks ++ others)).length < fuel)
    (first : ∀ less, tokens.length ≤ less → less ≤ fuel →
      ReadsAll unlocated (parsers less) (tokens ++ marks) (opens others follow) values messages)
    (later : ∀ less, others.length < less → less ≤ fuel →
      ReadsAll unlocated (loop less) others follow rest messages') :
    ReadsAll unlocated (loop fuel) (tokens ++ (marks ++ others)) follow (values ++ rest)
      (messages ++ messages') := by
  obtain ⟨t, tokens, rfl⟩ := exists_cons_of_ne_nil (starts.ne_nil closesEof)
  simp only [length_cons, length_append] at enough first
  obtain ⟨less, rfl⟩ : ∃ less, fuel = less + 1 := ⟨fuel - 1, by omega⟩
  rw [isLoop, ← append_assoc]
  exact reads_gather_cons starts (cons_ne_nil _ _) (first less (by omega) (by omega))
    (later less (by omega) (by omega))

theorem reads_loop_last (enough : tokens.length < fuel)
    (first : ∀ less, tokens.length ≤ less → less ≤ fuel →
      ReadsAll unlocated (parsers less) (tokens ++ []) follow values messages)
    (closed : ∀ t, follow t → closesBlock t = true ∧ closes t = true) :
    ReadsAll unlocated (loop fuel) tokens follow values messages := by
  have whole : tokens ++ ([] ++ []) = tokens := append_nil tokens
  have both : ReadsAll unlocated (loop fuel) (tokens ++ ([] ++ [])) follow (values ++ [])
      (messages ++ []) :=
    reads_loop_cons isLoop starts closesEof (whole.symm ▸ enough) first fun _ some _ =>
      reads_loop_nil isLoop some closed
  rwa [whole, append_nil, append_nil] at both

end First

end Lists

/-! ## Blocks -/

section Blocks

variable {block : Parser (List Stmt)} {tokens marks body other : List Token}
  {follow : Token → Prop} {messages messages' : List String} {statements more : List Stmt}

variable {actions : List TriggerArg}

theorem Action.startsItem (isAction : Action tokens actions) :
    StartsItem (fun t => t = .endWord ∨ t = .eof) (headOf tokens) := by
  obtain ⟨action, _, argument⟩ := isAction
  cases argument <;> exact ⟨rfl, rfl⟩

theorem Action.accepts (isAction : Action tokens actions) (ends : Ends marks follow) :
    ReadsAll TriggerArg.unlocated (orRecover (liftReader actionPart) [.endWord])
      (tokens ++ marks) follow actions [] := by
  obtain ⟨action, rfl, argument⟩ := isAction
  refine .orRecover (.lift (.bind (argument.accepts fun _ opened => (ends.stops opened).2.2)
    fun read isRead => ends.returns ?_)) _
  rw [map_singleton, isRead]

/-- Each action has a token, so that the fuel lasts. -/
theorem Listing.accepts_actions (listing : Listing Action tokens actions) {fuel : Nat}
    (enough : tokens.length < fuel) :
    ReadsAll TriggerArg.unlocated (triggerActions fuel) tokens (· = .endWord) actions [] := by
  have closed : ∀ t, t = Token.endWord →
      closesBlock t = true ∧ decide (t = .endWord ∨ t = .eof) = true := by
    rintro _ rfl
    exact ⟨rfl, rfl⟩
  induction listing generalizing fuel with
  | nil => exact reads_loop_nil triggerActions_succ enough closed
  | skip terminates _ ih =>
    exact reads_loop_skip triggerActions_succ terminates (Nat.zero_lt_of_lt enough)
      (ih (Nat.lt_of_succ_lt enough))
  | last isAction =>
    exact reads_loop_last triggerActions_succ isAction.startsItem rfl enough
      (fun _ _ _ => isAction.accepts (.closing fun t follows => (closed t follows).1)) closed
  | cons isAction terminates _ ih =>
    exact reads_loop_cons triggerActions_succ isAction.startsItem rfl enough
      (fun _ _ _ => isAction.accepts (.mark terminates _)) fun _ enough _ => ih enough

theorem accepts_triggerBlock {waits does : List Token} {condition : TriggerArg}
    (isCondition : Argument waits condition) (listing : Listing Action does actions)
    (someActions : actions ≠ []) (ends : Ends marks follow) :
    ReadsAll Stmt.unlocated triggerBlock
      (.whenWord :: (waits ++ .doWord :: (does ++ .endWord :: marks))) follow
      [.trigger condition actions ⟨none, none⟩] [] := by
  have headReads : Accepts triggerHead (waits ++ [.doWord])
      (opens (does ++ .endWord :: marks) follow) (fun read => read.1.unlocated = condition) [] :=
    .bind (isCondition.accepts (by rintro _ rfl; decide)) fun _ isRead =>
      .bind_last (.expect .doWord) fun _ _ => .pure isRead
  have actionsRead : ReadsAll TriggerArg.unlocated
      (do triggerActions (← get).tokens.length : Parser (List TriggerArg)) does (· = .endWord)
      actions [] :=
    .query (fun _ => rfl) fun _ _ before => listing.accepts_actions before.length_lt
  rw [append_cons waits]
  refine .counted (.lift .advance) fun start _ => .counted (.attempt headReads.lift) ?_
  rintro _ ⟨⟨found, opening⟩, rfl, isFound⟩
  refine .congr (.counted actionsRead fun actions' isActions => ?_) fun _ _ _ => rfl
  refine .counted (.lift (.expect .endWord)) fun closing _ => ?_
  have notEmpty : ¬actions'.isEmpty = true := by
    rintro empty
    obtain rfl := List.isEmpty_iff.mp empty
    exact someActions isActions.symm
  have ended : ReadsAll Stmt.unlocated (do
      expectTerminator
      return [.trigger found actions' (.located (start.union closing))]) marks follow
      [.trigger condition actions ⟨none, none⟩] [] :=
    .bind_last (.lift ends.accepts) fun _ _ => .pure (by simp [Stmt.unlocated, isFound, isActions])
  refine ended.congr fun session _ _ => ?_
  change (if session.errors.length < session.errors.length then _
    else if actions'.isEmpty then _ else _ : Parser _) session = _
  rw [if_neg (Nat.lt_irrefl _), if_neg notEmpty]

theorem accepts_elsePart (e : Expr)
    (bodyReads : ReadsAll Stmt.unlocated block body follow statements messages) :
    ReadsAll Stmt.unlocated (elsePart block e) (.elseWord :: body) follow
      (.closeBlock ⟨none, none⟩ ::
        .openBlock (.compound .not [e.unlocated] none) ⟨none, none⟩ :: statements) messages := by
  refine .peek (.bind (.lift .advance) fun loc _ => ?_)
  refine .returns (bodyReads.mono fun result isResult => ?_)
  simp [Stmt.unlocated, Expr.unlocated, isResult]

theorem accepts_noElse (e : Expr) :
    ReadsAll Stmt.unlocated (elsePart block e) [] (· = .endWord) [] [] := by
  refine .peek_end ?_
  rintro _ rfl
  exact .pure rfl

theorem accepts_conditionBlock {head : List Token} {condition : Expr}
    (derives : Derives .disjunction head condition)
    (bodyReads : ReadsAll Stmt.unlocated block body (fun t => closesBlock t = true) statements
      messages)
    (isOther : other = [] ∨ headOf other = .elseWord)
    (otherReads : ∀ e, e.unlocated = condition →
      ReadsAll Stmt.unlocated (elsePart block e) other (· = .endWord) more messages')
    (ends : Ends marks follow) :
    ReadsAll Stmt.unlocated (conditionBlock block)
      (.ifWord :: (head ++ .thenWord :: (body ++ (other ++ .endWord :: marks)))) follow
      (.openBlock condition ⟨none, none⟩ :: (statements ++ (more ++ [.closeBlock ⟨none, none⟩])))
      (messages ++ messages') := by
  have headReads : Accepts conditionHead (head ++ [.thenWord])
      (opens (body ++ (other ++ .endWord :: marks)) follow)
      (fun phrase => phrase.expr.unlocated = condition) [] :=
    .bind (derives.gives.narrow (by rintro _ rfl; rfl)) fun phrase isPhrase =>
      .bind_last (.discard (.expect .thenWord)) fun _ _ => .pure isPhrase
  rw [append_cons head]
  change Accepts _ _ _ _ ([] ++ ([] ++ (messages ++ messages')))
  refine .bind (.lift .advance) fun _ _ => .bind (.attempt headReads.lift) ?_
  rintro _ ⟨phrase, rfl, isCondition⟩
  refine .bind (bodyReads.narrow ?_) fun found isFound => ?_
  · intro t opened
    cases other with
    | nil =>
      cases opened
      rfl
    | cons first others =>
      obtain rfl : t = first := opened
      obtain rfl : t = .elseWord := isOther.resolve_left (cons_ne_nil _ _)
      rfl
  rw [← append_nil messages']
  refine .bind (otherReads _ isCondition) fun others isOthers => ?_
  refine .bind (.lift (.expect .endWord)) fun _ _ => ?_
  refine .bind_last (.lift ends.accepts) fun _ _ => .pure ?_
  simp [Stmt.unlocated, isCondition, isFound, isOthers]

theorem accepts_defineBlock (name : String)
    (bodyReads : ReadsAll Stmt.unlocated block body (fun t => closesBlock t = true) statements
      messages)
    (ends : Ends marks follow) :
    Accepts (definition block) (.defWord :: .ident name :: .doWord :: (body ++ .endWord :: marks))
      follow (fun s => s.unlocated = .defineBlock ⟨name, none⟩ statements ⟨none, none⟩) messages := by
  refine .bind (.lift .advance) fun _ _ => .bind (.lift (.expectIdent name)) fun _ isName => ?_
  cases isName
  refine .peek (.bind (.lift (.discard .advance)) fun _ _ => ?_)
  rw [← append_nil messages]
  refine .bind (bodyReads.narrow (by rintro _ rfl; rfl)) fun found isFound => ?_
  refine .bind (.lift (.expect .endWord)) fun _ _ => ?_
  refine .bind_last (.lift ends.accepts) fun _ _ => .pure ?_
  simp [Stmt.unlocated, Ident.unlocated, isFound]

theorem accepts_defineExpr {value : Expr} (name : String)
    (derives : Derives .disjunction tokens value) (ends : Ends marks follow) :
    Accepts (definition block) (.defWord :: .ident name :: .eq :: (tokens ++ marks)) follow
      (fun s => s.unlocated = .defineExpr ⟨name, none⟩ value ⟨none, none⟩) [] := by
  refine .bind (.lift .advance) fun _ _ => .bind (.lift (.expectIdent name)) fun _ isName => ?_
  cases isName
  refine .peek (.bind (.lift (.discard .advance)) fun _ _ => ?_)
  refine .bind (.lift (derives.gives.narrow fun _ opened => (ends.stops opened).1))
    fun value' isValue => ?_
  refine .bind_last (.lift ends.accepts) fun _ _ => .pure ?_
  simp [Stmt.unlocated, Ident.unlocated, isValue]

theorem accepts_definition {s : Stmt}
    (accepts : Accepts (definition block) (.defWord :: tokens) follow
      (fun s' => s'.unlocated = s) messages) :
    ReadsAll Stmt.unlocated (statement block true) (.defWord :: tokens) follow [s] messages := by
  refine .peek (.query (fun _ => rfl) fun _ _ _ => ?_)
  refine .returns (accepts.mono fun s' isStatement => ?_)
  rw [map_singleton, isStatement]

end Blocks

/-! ## Statements -/

def closesList (topLevel : Bool) (token : Token) : Bool :=
  if topLevel then token = .eof else closesBlock token

/-- The loop over the statements of a script, in which bodies are at most `depth` deep, or of a
body. -/
def statementList (topLevel : Bool) (depth fuel : Nat) : Parser (List Stmt) :=
  if topLevel then programBody (blockBody depth) fuel else blockBody fuel

def listedStatement (topLevel : Bool) (depth fuel : Nat) : Parser (List Stmt) :=
  if topLevel then orRecover (statement (blockBody depth) true) []
  else orRecover (statement (blockBody fuel) false) [.endWord, .elseWord]

theorem statementList_succ (topLevel : Bool) (depth fuel : Nat) :
    statementList topLevel depth (fuel + 1) =
      gather (closesList topLevel) (listedStatement topLevel depth fuel)
        (statementList topLevel depth fuel) := by
  cases topLevel with
  | true => exact programBody_succ fuel
  | false => rfl

theorem closesList_eof (topLevel : Bool) : closesList topLevel .eof = true := by
  cases topLevel <;> rfl

theorem closesBlock_of_closesList {topLevel : Bool} {token : Token}
    (closes : closesList topLevel token = true) : closesBlock token = true := by
  cases topLevel with
  | true =>
    obtain rfl : token = .eof := of_decide_eq_true closes
    rfl
  | false => exact closes

theorem StartsItem.of_closesBlock {token : Token} (starts : StartsItem closesBlock token)
    (topLevel : Bool) : StartsItem (closesList topLevel) token := by
  refine ⟨starts.1, Bool.eq_false_iff.mpr fun closes => ?_⟩
  have goesOn := starts.2
  rw [closesBlock_of_closesList closes] at goesOn
  cases goesOn

/-- What it is for the tokens to be read as the statements in this role, with errors that say
this. -/
def Role.Accepted (role : Role) (tokens : List Token) (statements : List Stmt)
    (messages : List String) : Prop :=
  match role with
  | .statement topLevel =>
    StartsItem closesBlock (headOf tokens) ∧
      ∀ fuel marks follow, tokens.length ≤ fuel → Ends marks follow →
        ReadsAll Stmt.unlocated (Grammar.statement (blockBody fuel) topLevel) (tokens ++ marks)
          follow statements messages
  | .statements topLevel => ∀ depth fuel follow, tokens.length < fuel → fuel ≤ depth →
      (∀ t, follow t → closesList topLevel t = true) →
      ReadsAll Stmt.unlocated (statementList topLevel depth fuel) tokens follow statements messages
  | .otherwise condition => (tokens = [] ∨ headOf tokens = .elseWord) ∧
      ∀ fuel e, tokens.length ≤ fuel → e.unlocated = condition →
        ReadsAll Stmt.unlocated (elsePart (blockBody fuel) e) tokens (· = .endWord) statements
          messages

section Accepted

variable {topLevel : Bool} {mark : Token} {tokens body other others : List Token}
  {condition : Expr} {first statements more : List Stmt} {messages messages' : List String}

theorem accepts_listedStatement {depth fuel : Nat} {marks : List Token} {follow : Token → Prop}
    (accepted : (Role.statement topLevel).Accepted tokens statements messages)
    (enough : tokens.length ≤ fuel) (deep : fuel ≤ depth) (ends : Ends marks follow) :
    ReadsAll Stmt.unlocated (listedStatement topLevel depth fuel) (tokens ++ marks) follow
      statements messages := by
  cases topLevel with
  | true => exact (accepted.2 depth marks follow (Nat.le_trans enough deep) ends).orRecover _
  | false => exact (accepted.2 fuel marks follow enough ends).orRecover _

theorem accepted_skip (terminates : isTerminator mark = true)
    (accepted : (Role.statements topLevel).Accepted tokens statements messages) :
    (Role.statements topLevel).Accepted (mark :: tokens) statements messages :=
  fun depth fuel follow enough deep closed =>
    reads_loop_skip (statementList_succ topLevel depth) terminates (Nat.zero_lt_of_lt enough)
      (accepted depth fuel follow (Nat.lt_of_succ_lt enough) deep closed)

theorem accepted_last (accepted : (Role.statement topLevel).Accepted tokens statements messages) :
    (Role.statements topLevel).Accepted tokens statements messages := by
  intro depth fuel follow enough deep closed
  refine reads_loop_last (statementList_succ topLevel depth) (accepted.1.of_closesBlock topLevel)
    (closesList_eof topLevel) enough (fun less enough within => ?_)
    fun t follows => ⟨closesBlock_of_closesList (closed t follows), closed t follows⟩
  exact accepts_listedStatement accepted enough (Nat.le_trans within deep)
    (.closing fun t follows => closesBlock_of_closesList (closed t follows))

theorem accepted_cons (firstAccepted : (Role.statement topLevel).Accepted tokens first messages)
    (terminates : isTerminator mark = true)
    (laterAccepted : (Role.statements topLevel).Accepted others more messages') :
    (Role.statements topLevel).Accepted (tokens ++ mark :: others) (first ++ more)
      (messages ++ messages') := by
  intro depth fuel follow enough deep closed
  exact reads_loop_cons (statementList_succ topLevel depth)
    (firstAccepted.1.of_closesBlock topLevel) (closesList_eof topLevel) enough
    (fun less enough within => accepts_listedStatement firstAccepted enough
      (Nat.le_trans within deep) (.mark terminates _))
    fun less enough within => laterAccepted depth less follow enough (Nat.le_trans within deep) closed

theorem accepted_body (accepted : (Role.statements false).Accepted body statements messages)
    {fuel : Nat} (enough : body.length < fuel) :
    ReadsAll Stmt.unlocated (blockBody fuel) body (fun t => closesBlock t = true) statements
      messages :=
  accepted fuel fuel _ enough (Nat.le_refl fuel) fun _ closes => closes

theorem accepted_conditionBlock {head : List Token} (topLevel : Bool)
    (derives : Derives .disjunction head condition)
    (bodyAccepted : (Role.statements false).Accepted body statements messages)
    (otherAccepted : (Role.otherwise condition).Accepted other more messages') :
    (Role.statement topLevel).Accepted
      (.ifWord :: (head ++ .thenWord :: (body ++ (other ++ [.endWord]))))
      (.openBlock condition ⟨none, none⟩ :: (statements ++ (more ++ [.closeBlock ⟨none, none⟩])))
      (messages ++ messages') := by
  refine ⟨⟨rfl, rfl⟩, fun fuel marks follow enough ends => ?_⟩
  simp only [length_cons, length_append] at enough
  simp only [cons_append, append_assoc, nil_append]
  exact .peek (accepts_conditionBlock derives (accepted_body bodyAccepted (by omega))
    otherAccepted.1 (fun e => otherAccepted.2 fuel e (by omega)) ends)

theorem accepted_defineBlock (name : String)
    (accepted : (Role.statements false).Accepted body statements messages) :
    (Role.statement true).Accepted (.defWord :: .ident name :: .doWord :: (body ++ [.endWord]))
      [.defineBlock ⟨name, none⟩ statements ⟨none, none⟩] messages := by
  refine ⟨⟨rfl, rfl⟩, fun fuel marks follow enough ends => ?_⟩
  simp only [length_cons, length_append] at enough
  simp only [cons_append, append_assoc, nil_append]
  exact accepts_definition (accepts_defineBlock name (accepted_body accepted (by omega)) ends)

theorem accepted_other (condition : Expr)
    (accepted : (Role.statements false).Accepted body statements messages) :
    (Role.otherwise condition).Accepted (.elseWord :: body)
      (.closeBlock ⟨none, none⟩ ::
        .openBlock (.compound .not [condition] none) ⟨none, none⟩ :: statements) messages := by
  refine ⟨.inr rfl, ?_⟩
  rintro fuel e enough rfl
  exact accepts_elsePart e ((accepted_body accepted enough).narrow (by rintro _ rfl; rfl))

end Accepted

variable {statements : List Stmt}

theorem Forms.accepted {role : Role} {tokens : List Token} (forms : Forms role tokens statements) :
    role.Accepted tokens statements [] := by
  induction forms with
  | simple topLevel simple =>
    refine ⟨?_, fun fuel marks follow _ ends => simple.accepts (blockBody fuel) topLevel ends⟩
    rcases simple.starts with ⟨name, isName⟩ | isUse
    · rw [isName]
      exact ⟨rfl, rfl⟩
    · rw [isUse]
      exact ⟨rfl, rfl⟩
  | triggerBlock topLevel isCondition listing someActions =>
    refine ⟨⟨rfl, rfl⟩, fun fuel marks follow _ ends => ?_⟩
    simp only [cons_append, append_assoc, nil_append]
    exact .peek (accepts_triggerBlock isCondition listing someActions ends)
  | conditionBlock topLevel derives _ _ body other =>
    exact accepted_conditionBlock topLevel derives body other
  | defineExpr name derives =>
    exact ⟨⟨rfl, rfl⟩, fun fuel marks follow _ ends =>
      accepts_definition (accepts_defineExpr name derives ends)⟩
  | defineBlock name _ body => exact accepted_defineBlock name body
  | noOther condition => exact ⟨.inl rfl, fun fuel e _ _ => accepts_noElse e⟩
  | other condition _ body => exact accepted_other condition body
  | nil topLevel =>
    exact fun depth fuel follow some _ closed => reads_loop_nil (statementList_succ topLevel depth)
      some fun t follows => ⟨closesBlock_of_closesList (closed t follows), closed t follows⟩
  | skip terminates _ ih => exact accepted_skip terminates ih
  | last _ ih => exact accepted_last ih
  | cons _ terminates _ first more => exact accepted_cons first terminates more

theorem Role.Accepted.parseTokens_eq {front : List PlacedToken} {last : PlacedToken}
    {messages : List String}
    (accepted : (Role.statements true).Accepted (tokensOf front) statements messages)
    (isEof : last.token = .eof) :
    ∃ program errors, parseTokens (front ++ [last]) = (program, errors) ∧
      program.map Stmt.unlocated = statements ∧ errors.map Diagnostic.message = messages := by
  have before : Before (⟨front ++ [last], []⟩ : Session) (tokensOf front) (· = .eof) [last] :=
    ⟨cons_ne_nil _ _, isEof, front, rfl, rfl⟩
  obtain ⟨statements', session, ran, -, told, isProgram⟩ :=
    accepted (front ++ [last]).length _ (· = .eof) before.length_lt (Nat.le_refl _)
      (fun t isEof => decide_eq_true isEof) _ _ before
  refine ⟨statements', session.errors, ?_, isProgram, told⟩
  have ran : program ⟨front ++ [last], []⟩ = .ok statements' session := ran
  rw [parseTokens, ran]

/-- A script is read without an error exactly if its tokens form statements, and these are the
statements that are read. -/
theorem parseTokens_iff_forms {front : List PlacedToken} {last : PlacedToken}
    (noEof : ∀ placed ∈ front, placed.token ≠ .eof) (isEof : last.token = .eof) :
    (∃ program, parseTokens (front ++ [last]) = (program, []) ∧
        program.map Stmt.unlocated = statements) ↔
      Forms (.statements true) (tokensOf front) statements := by
  constructor
  · rintro ⟨program, parsed, rfl⟩
    exact forms_of_parsed noEof isEof parsed
  · intro forms
    obtain ⟨program, errors, parsed, isProgram, noErrors⟩ := forms.accepted.parseTokens_eq isEof
    obtain rfl := map_eq_nil_iff.mp noErrors
    exact ⟨program, parsed, isProgram⟩

end Grammar

end AutomationScript
