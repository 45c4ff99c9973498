import AutomationScript.Proofs.Grammar.DerivationsRead
import AutomationScript.Proofs.Grammar.Onward

/-!
# The rules of statements

`Forms` states the grammar of statements as rules from tokens to statements without locations.  What
is read without an error follows these rules (`takes_blockBody`, `forms_of_parsed`).
-/

namespace AutomationScript

open List AutomationScript.Reader AutomationScript.Parser

variable {tokens : List Token} {stream : List PlacedToken}

namespace Grammar

/-! ## Rules -/

/-- What a trigger waits for or does. -/
inductive Argument : List Token → TriggerArg → Prop
  | once (kind id : String) :
      Argument [.ident kind, .ident id] ⟨⟨kind, none⟩, ⟨id, none⟩, none, none⟩
  | counted (kind id : String) (count : Number) :
      Argument [.ident kind, .ident id, .leftParen, .number count, .rightParen]
        ⟨⟨kind, none⟩, ⟨id, none⟩, some (.number count none), none⟩

/-- The condition of an assignment, if it has one. -/
inductive Restricts : List Token → Option Expr → Prop
  | never : Restricts [] none
  | condition {tokens : List Token} {e : Expr} :
      Derives .disjunction tokens e → Restricts (.ifWord :: tokens) (some e)

/-- A statement without a body. -/
inductive Simple : List Token → Stmt → Prop
  | assign {left right restriction : List Token} {name : String} {target value : Expr}
      {condition : Option Expr} :
      headOf left = .ident name → Derives .primary left target →
      Derives .disjunction right value → Restricts restriction condition →
      Simple (left ++ .eq :: (right ++ restriction))
        (.assign target value condition ⟨none, none⟩)
  | trigger {does waits : List Token} {action condition : TriggerArg} :
      Argument does action → Argument waits condition →
      Simple (does ++ .whenWord :: waits) (.trigger condition [action] ⟨none, none⟩)
  | use (name : String) :
      Simple [.useWord, .ident name] (.use ⟨name, none⟩ ⟨none, none⟩)

/-- Items with line ends or semicolons between them.  The last item needs none after it. -/
inductive Listing {α : Type} (item : List Token → List α → Prop) : List Token → List α → Prop
  | nil : Listing item [] []
  | skip {mark : Token} {tokens : List Token} {values : List α} :
      isTerminator mark = true → Listing item tokens values → Listing item (mark :: tokens) values
  | last {tokens : List Token} {values : List α} :
      item tokens values → Listing item tokens values
  | cons {mark : Token} {tokens more : List Token} {values rest : List α} :
      item tokens values → isTerminator mark = true → Listing item more rest →
      Listing item (tokens ++ mark :: more) (values ++ rest)

def Action (tokens : List Token) (actions : List TriggerArg) : Prop :=
  ∃ action, actions = [action] ∧ Argument tokens action

/-- What tokens are read as.  Definitions are statements on the top level only. -/
inductive Role where
  | statement (topLevel : Bool)
  | statements (topLevel : Bool)
  /-- What stands after the statements that a condition governs. -/
  | otherwise (condition : Expr)

/-- The tokens are the statements in this role. -/
inductive Forms : Role → List Token → List Stmt → Prop
  | simple (topLevel : Bool) {tokens : List Token} {s : Stmt} :
      Simple tokens s → Forms (.statement topLevel) tokens [s]
  | triggerBlock (topLevel : Bool) {waits does : List Token} {condition : TriggerArg}
      {actions : List TriggerArg} :
      Argument waits condition → Listing Action does actions → actions ≠ [] →
      Forms (.statement topLevel) (.whenWord :: (waits ++ .doWord :: (does ++ [.endWord])))
        [.trigger condition actions ⟨none, none⟩]
  | conditionBlock (topLevel : Bool) {head body other : List Token} {condition : Expr}
      {statements more : List Stmt} :
      Derives .disjunction head condition → Forms (.statements false) body statements →
      Forms (.otherwise condition) other more →
      Forms (.statement topLevel)
        (.ifWord :: (head ++ .thenWord :: (body ++ (other ++ [.endWord]))))
        (.openBlock condition ⟨none, none⟩ :: (statements ++ (more ++ [.closeBlock ⟨none, none⟩])))
  | defineExpr (name : String) {tokens : List Token} {value : Expr} :
      Derives .disjunction tokens value →
      Forms (.statement true) (.defWord :: .ident name :: .eq :: tokens)
        [.defineExpr ⟨name, none⟩ value ⟨none, none⟩]
  | defineBlock (name : String) {body : List Token} {statements : List Stmt} :
      Forms (.statements false) body statements →
      Forms (.statement true) (.defWord :: .ident name :: .doWord :: (body ++ [.endWord]))
        [.defineBlock ⟨name, none⟩ statements ⟨none, none⟩]
  | noOther (condition : Expr) : Forms (.otherwise condition) [] []
  | other (condition : Expr) {body : List Token} {statements : List Stmt} :
      Forms (.statements false) body statements →
      Forms (.otherwise condition) (.elseWord :: body)
        (.closeBlock ⟨none, none⟩ ::
          .openBlock (.compound .not [condition] none) ⟨none, none⟩ :: statements)
  | nil (topLevel : Bool) : Forms (.statements topLevel) [] []
  | skip {topLevel : Bool} {mark : Token} {tokens : List Token} {statements : List Stmt} :
      isTerminator mark = true → Forms (.statements topLevel) tokens statements →
      Forms (.statements topLevel) (mark :: tokens) statements
  | last {topLevel : Bool} {tokens : List Token} {statements : List Stmt} :
      Forms (.statement topLevel) tokens statements →
      Forms (.statements topLevel) tokens statements
  | cons {topLevel : Bool} {mark : Token} {tokens more : List Token}
      {statements rest : List Stmt} :
      Forms (.statement topLevel) tokens statements → isTerminator mark = true →
      Forms (.statements topLevel) more rest →
      Forms (.statements topLevel) (tokens ++ mark :: more) (statements ++ rest)

theorem Forms.of_listing {topLevel : Bool} {statements : List Stmt}
    (listing : Listing (Forms (.statement topLevel)) tokens statements) :
    Forms (.statements topLevel) tokens statements := by
  induction listing with
  | nil => exact .nil topLevel
  | skip terminates _ ih => exact .skip terminates ih
  | last forms => exact .last forms
  | cons forms terminates _ ih => exact .cons forms terminates ih

end Grammar

/-! ## What parsers take -/

/-- The marks end a statement before the rest: there is one, or the rest closes a block. -/
def EndsStatement (marks rest : List Token) : Prop :=
  (∃ mark, isTerminator mark = true ∧ marks = [mark]) ∨
    marks = [] ∧ Grammar.closesBlock (headOf rest) = true

namespace Takes

variable {α β : Type} {reader : Reader α} {pre : List Token → Prop}
  {post : α → List Token → List Token → Prop} {after : β → List Token → List Token → Prop}

theorem lift (takes : Takes pre reader post) : Takes pre (liftM reader : Parser α) post := by
  rintro ⟨stream, errors⟩ a session ran _ _ ends holds
  obtain ⟨rest, readerRan, rfl⟩ := liftReader_eq_ok_iff.mp ran
  exact takes stream a rest readerRan rfl rfl ends holds

theorem lift_bind {next : α → Parser β} (takes : Takes pre reader post)
    (continued : ∀ a taken rest, post a taken rest →
      Takes (fun tokens => pre (taken ++ tokens) ∧ tokens = rest) (next a)
        fun b more rest => after b (taken ++ more) rest) :
    Takes pre (liftM reader >>= next) after := by
  refine takes.lift.chain ?_ continued
  rintro ⟨stream, errors⟩ a middle b session ran _ clean _
  obtain ⟨rest, _, rfl⟩ := liftReader_eq_ok_iff.mp ran
  exact clean

theorem attempt_bind {next : Except Diagnostic α → Parser β} (takes : Takes pre reader post)
    (reported : ∀ error session, Cursor.messages (stateOf (next (.error error) session)) ≠ [])
    (continued : ∀ a taken rest, post a taken rest →
      Takes (fun tokens => pre (taken ++ tokens) ∧ tokens = rest) (next (.ok a))
        fun b more rest => after b (taken ++ more) rest) :
    Takes pre (attempt (liftM reader) >>= next) after := by
  rintro ⟨stream, errors⟩ b session ran clean cleanEnd
  obtain ⟨outcome, middle, tried, nextRan⟩ := run_bind_eq_ok_iff.mp ran
  change attempt (liftReader reader) _ = _ at tried
  cases readerRan : reader stream with
  | ok a rest =>
    rw [attempt_liftReader readerRan] at tried
    cases tried
    have whole : (liftReader reader >>= fun a => next (.ok a)) ⟨stream, errors⟩ = .ok b session :=
      run_bind_eq_ok_iff.mpr ⟨a, _, liftReader_eq_ok_iff.mpr ⟨_, readerRan, rfl⟩, nextRan⟩
    exact lift_bind takes continued _ b session whole clean cleanEnd
  | error error rest =>
    rw [attempt, liftReader, readerRan] at tried
    cases tried
    have spoiled := reported error ⟨rest, errors⟩
    rw [nextRan] at spoiled
    exact absurd cleanEnd spoiled

theorem orRecover {parser : Parser (List α)} {post : List α → List Token → List Token → Prop}
    (takes : Takes pre parser post) (closers : List Token) :
    Takes pre (orRecover parser closers) post := by
  intro session values session' ran clean cleanEnd
  cases parserRan : parser session with
  | ok found middle =>
    rw [orRecover_eq_ok parserRan] at ran
    cases ran
    exact takes session values session' parserRan clean cleanEnd
  | error error middle =>
    obtain ⟨xs, errors⟩ := middle
    rw [orRecover_of_error parserRan] at ran
    cases ran
    simp [Cursor.messages] at cleanEnd

theorem ends {post : List Token → List Token → Prop}
    (holds : ∀ marks rest, EndsStatement marks rest → post marks rest) :
    Takes pre expectTerminator fun _ => post := by
  refine .peek fun token => ?_
  cases token with
  | newline | semicolon =>
    refine (Takes.discard .advance).mono (fun _ before => before) fun _ taken rest isMark => ?_
    exact holds taken rest (.inl ⟨_, rfl, isMark⟩)
  | eof | endWord | elseWord =>
    exact .stays fun rest before => holds [] rest (.inr ⟨rfl, by rw [before.2]; rfl⟩)
  | _ => exact .fails

end Takes

namespace Grammar

/-! ## Statements without a body -/

/-- Without their locations the values are what the tokens are, and the marks after these tokens
end a statement. -/
def Taken {α : Type} (item : List Token → List α → Prop) (unlocated : α → α) (values : List α)
    (taken rest : List Token) : Prop :=
  ∃ tokens marks, taken = tokens ++ marks ∧ item tokens (values.map unlocated) ∧
    EndsStatement marks rest

abbrev TakenStatement (topLevel : Bool) : List Stmt → List Token → List Token → Prop :=
  Taken (Forms (.statement topLevel)) Stmt.unlocated

variable {pre : List Token → Prop} {topLevel : Bool}

theorem takes_conditionPart :
    Takes pre conditionPart fun condition taken _ =>
      Restricts taken ((condition.map Phrase.expr).map Expr.unlocated) := by
  refine .peek fun token => ?_
  by_cases conditional : token = .ifWord
  · subst conditional
    refine .step (.discard .advance) fun _ => .returns ?_
    exact takes_expression.mono (fun _ _ => True.intro) fun phrase taken _ => .condition
  · rw [if_neg conditional]
    exact .pure fun _ => .never

theorem takes_target {name : String} (found : ∀ tokens, pre tokens → headOf tokens = .ident name) :
    Takes pre target fun phrase taken _ =>
      headOf taken = .ident name ∧ Derives .primary taken phrase.expr.unlocated := by
  have takes : Takes pre target fun phrase taken _ =>
      Derives .primary taken phrase.expr.unlocated :=
    .query (fun _ => rfl) fun stream _ => (takes_reference (takes_primary stream.length)).within
  refine takes.also.mono (fun _ holds => holds) ?_
  rintro phrase taken rest ⟨holds, derives⟩
  obtain ⟨first, others, rfl, _⟩ := derives.starts
  have isName : headOf (first :: (others ++ rest)) = .ident name := found _ holds
  exact ⟨isName, derives⟩

theorem takes_triggerArgument :
    Takes pre triggerArgument fun read taken _ => Argument taken read.1.unlocated := by
  apply Takes.expectIdent.bind
  rintro ⟨kind, kindLoc⟩ _ _ rfl
  apply Takes.expectIdent.bind
  rintro ⟨id, idLoc⟩ _ _ rfl
  refine .peek fun token => ?_
  dsimp only
  by_cases counted : token = .leftParen
  · subst counted
    refine .step (.discard .advance) fun _ => .peek fun inner => ?_
    cases inner with
    | number value =>
      exact .step .advance fun countLoc => .step .expect fun closing =>
        .pure fun _ => .counted kind id value
    | _ => exact .fails
  · rw [if_neg counted]
    exact .pure fun _ => .once kind id

theorem takes_assignment {name : String}
    (found : ∀ tokens, pre tokens → headOf tokens = .ident name) :
    Takes pre assignment fun s => TakenStatement topLevel [s] := by
  apply (takes_target found).bind
  rintro target left _ ⟨isName, targetDerives⟩
  refine .step (.discard .expect) fun _ => ?_
  apply takes_expression.within.bind
  intro value right _ valueDerives
  apply takes_conditionPart.bind
  intro condition restriction _ restricts
  cases condition with
  | none | some _ =>
    refine .returns (.ends fun marks rest ends => ⟨_, marks, ?_, .simple topLevel
      (.assign isName targetDerives valueDerives restricts), ends⟩)
    simp

theorem takes_inlineTrigger : Takes pre inlineTrigger fun s => TakenStatement topLevel [s] := by
  apply takes_triggerArgument.bind
  rintro ⟨action, actionLoc⟩ does _ isAction
  refine .step (.discard .expect) fun _ => ?_
  apply takes_triggerArgument.bind
  rintro ⟨condition, conditionLoc⟩ waits _ isCondition
  refine .returns (.ends fun marks rest ends => ⟨_, marks, ?_, .simple topLevel
    (.trigger isAction isCondition), ends⟩)
  simp

theorem takes_useStatement (found : ∀ tokens, pre tokens → headOf tokens = .useWord) :
    Takes pre useStatement fun s => TakenStatement topLevel [s] := by
  refine .step (.advance found) fun start => ?_
  apply Takes.expectIdent.bind
  rintro ⟨name, loc⟩ _ _ rfl
  exact .returns (.ends fun marks rest ends => ⟨[.useWord, .ident name], marks, rfl,
    .simple topLevel (.use name), ends⟩)

/-! ## Lists of items -/

theorem isTerminator_of_closesBlock {token : Token} (closes : closesBlock token = true) :
    isTerminator token = false := by
  cases token <;> first | rfl | cases closes

theorem dropTerminators_of_not (goesOn : isTerminator (headToken stream) = false) :
    dropTerminators stream = stream := by
  cases stream with
  | nil => rfl
  | cons first others => exact dropTerminators_cons_of_not (Bool.eq_false_iff.mp goesOn)

section Lists

variable {α : Type} {item : List Token → List α → Prop} {unlocated : α → α}
  {closes : Token → Bool} {first more : Parser (List α)} {fuel : Nat}

theorem Listing.skips {marks : List Token} {values : List α}
    (listing : Listing item tokens values) (each : ∀ mark ∈ marks, isTerminator mark = true) :
    Listing item (marks ++ tokens) values := by
  induction marks with
  | nil => exact listing
  | cons mark marks ih =>
    exact .skip (each mark mem_cons_self)
      (ih fun later member => each later (mem_cons_of_mem mark member))

/-- Items are taken up to a token that closes their list, if the fuel lasts.  Before a token that
closes a block nothing is taken. -/
structure Gathered (item : List Token → List α → Prop) (unlocated : α → α) (closes : Token → Bool)
    (fuel : Nat) (values : List α) (taken rest : List Token) : Prop where
  lists : Listing item taken (values.map unlocated)
  stays : closesBlock (headOf (taken ++ rest)) = true → values = [] ∧ taken = []
  closed : (taken ++ rest).length ≤ fuel → closes (headOf rest) = true

theorem takes_none (atEnd : closes .eof = true) :
    Takes pre (pure [] : Parser (List α)) (Gathered item unlocated closes 0) := by
  refine .pure fun rest => ⟨.nil, fun _ => ⟨rfl, rfl⟩, fun none => ?_⟩
  rw [eq_nil_of_length_eq_zero (l := rest) (Nat.le_zero.mp none)]
  exact atEnd

theorem takes_skipTerminators :
    Takes pre skipTerminators fun _ skipped _ => ∀ mark ∈ skipped, isTerminator mark = true := by
  intro stream _ rest ran _ _ ends _
  cases ran
  refine ⟨stream.takeWhile fun placed => isTerminator placed.token,
    takeWhile_append_dropWhile.symm, (onward_dropWhile isTerminator rfl stream).ends ends, ?_⟩
  intro mark member
  obtain ⟨placed, isPlaced, rfl⟩ := mem_map.mp member
  exact all_eq_true.mp all_takeWhile placed isPlaced

theorem takes_gather [GoesOn more] (firstTakes : ∀ {pre}, Takes pre first (Taken item unlocated))
    (starts : ∀ tokens values, item tokens values → closesBlock (headOf tokens) = false)
    (moreTakes : ∀ {pre}, Takes pre more (Gathered item unlocated closes fuel)) :
    Takes pre (gather closes first more) (Gathered item unlocated closes (fuel + 1)) := by
  apply takes_skipTerminators.lift_bind
  intro _ skipped _ each
  -- Ends of statements close no block.
  have unskipped : ∀ {tokens}, closesBlock (headOf (skipped ++ tokens)) = true → skipped = [] := by
    intro tokens closed
    cases skipped with
    | nil => rfl
    | cons mark marks =>
      exact absurd (each mark mem_cons_self)
        (Bool.eq_false_iff.mp (isTerminator_of_closesBlock closed))
  refine .peek fun token => ?_
  by_cases closed : closes token = true
  · rw [if_pos closed]
    refine .stays fun rest before => ⟨?_, fun stays => ⟨rfl, ?_⟩, fun _ => ?_⟩
    · exact Listing.nil.skips each
    · rw [append_nil] at stays ⊢
      exact unskipped stays
    · rw [before.2]
      exact closed
  rw [if_neg closed]
  apply firstTakes.bind
  rintro found _ rest ⟨tokens, marks, rfl, isItem, ended⟩
  have goesOn := starts _ _ isItem
  have some : 0 < tokens.length := length_pos_iff.mpr (by rintro rfl; cases goesOn)
  refine .returns (moreTakes.also.mono (fun _ before => before) ?_)
  rintro values taken left ⟨⟨_, rfl⟩, gathered⟩
  refine ⟨?_, fun stays => ?_, fun enough => gathered.closed ?_⟩
  · refine Listing.skips ?_ each
    rw [map_append]
    rcases ended with ⟨mark, terminates, rfl⟩ | ⟨rfl, closedNext⟩
    · rw [append_assoc]
      exact .cons isItem terminates gathered.lists
    · obtain ⟨rfl, rfl⟩ := gathered.stays closedNext
      simpa using Listing.last isItem
  · obtain rfl := unskipped (by rwa [append_assoc] at stays)
    cases tokens with
    | nil => cases some
    | cons token others => exact absurd stays (Bool.eq_false_iff.mp goesOn)
  · simp only [length_append] at enough ⊢
    omega

end Lists

/-! ## Blocks -/

theorem takes_actionPart : Takes pre actionPart (Taken Action TriggerArg.unlocated) := by
  apply takes_triggerArgument.bind
  intro read tokens _ argument
  exact .returns (.ends fun marks rest ends => ⟨tokens, marks, rfl, ⟨_, rfl, argument⟩, ends⟩)

theorem Action.starts {actions : List TriggerArg} (isAction : Action tokens actions) :
    closesBlock (headOf tokens) = false := by
  obtain ⟨action, _, argument⟩ := isAction
  cases argument <;> rfl

theorem takes_triggerActions (fuel : Nat) :
    Takes pre (triggerActions fuel)
      (Gathered Action TriggerArg.unlocated (fun t => t = .endWord ∨ t = .eof) fuel) := by
  induction fuel generalizing pre with
  | zero => exact takes_none rfl
  | succ fuel ih =>
    rw [triggerActions_succ]
    exact takes_gather (takes_actionPart.lift.orRecover _) (fun _ _ => Action.starts) ih

theorem takes_triggerBlock (found : ∀ tokens, pre tokens → headOf tokens = .whenWord) :
    Takes pre triggerBlock (TakenStatement topLevel) := by
  refine .query (fun _ => rfl) fun before clean => ?_
  apply (Takes.advance fun tokens holds => found tokens holds.1).lift_bind
  rintro start _ _ rfl
  have headTakes : ∀ {pre : List Token → Prop}, Takes pre triggerHead fun head taken _ =>
      ∃ waits, taken = waits ++ [.doWord] ∧ Argument waits head.1.unlocated := by
    intro pre
    apply takes_triggerArgument.bind
    intro read waits _ argument
    exact .step .expect fun opening => .pure fun _ => ⟨waits, rfl, argument⟩
  refine headTakes.attempt_bind (fun error session => ?_) ?_
  · dsimp only
    exact messages_report_bind error session
  rintro ⟨condition, opening⟩ _ _ ⟨waits, rfl, isCondition⟩
  refine .query (fun _ => rfl) fun session _ => ?_
  apply (takes_triggerActions _).bind
  intro actions does _ gathered
  apply Takes.lift_bind .expect
  rintro closing _ _ rfl
  refine .query (fun _ => rfl) fun later cleanLater => ?_
  have none : ¬before.errors.length < later.errors.length := by
    rw [map_eq_nil_iff.mp cleanLater]
    exact Nat.not_lt_zero _
  rw [if_neg none]
  by_cases empty : actions.isEmpty = true
  · rw [if_pos empty]
    exact .fails
  · rw [if_neg empty]
    have someActions : actions.map TriggerArg.unlocated ≠ [] := by
      simpa [List.isEmpty_iff] using empty
    refine .returns (Takes.lift (.ends fun marks rest ends =>
      ⟨_, marks, ?_, .triggerBlock topLevel isCondition gathered.lists someActions, ends⟩))
    simp

section Blocks

variable {body : Parser (List Stmt)} [GoesOn body]

abbrev TakesStatements (topLevel : Bool) (body : Parser (List Stmt)) : Prop :=
  ∀ {pre}, Takes pre body fun statements taken _ =>
    Forms (.statements topLevel) taken (statements.map Stmt.unlocated)

variable (bodyTakes : TakesStatements false body)

include bodyTakes

theorem takes_elsePart (condition : Expr) :
    Takes pre (elsePart body condition) fun statements taken _ =>
      Forms (.otherwise condition.unlocated) taken (statements.map Stmt.unlocated) := by
  refine .peek fun token => ?_
  by_cases isElse : token = .elseWord
  · subst isElse
    refine .step (.lift .advance) fun loc => .returns ?_
    refine bodyTakes.imp fun statements taken _ forms => ?_
    simpa [Stmt.unlocated, Expr.unlocated] using Forms.other condition.unlocated forms
  · rw [if_neg isElse]
    exact .pure fun _ => .noOther _

theorem takes_conditionBlock (found : ∀ tokens, pre tokens → headOf tokens = .ifWord) :
    Takes pre (conditionBlock body) (TakenStatement topLevel) := by
  apply (Takes.advance found).lift_bind
  rintro start _ _ rfl
  have headTakes : ∀ {pre : List Token → Prop}, Takes pre conditionHead fun condition taken _ =>
      ∃ head, taken = head ++ [.thenWord] ∧
        Derives .disjunction head condition.expr.unlocated := by
    intro pre
    apply takes_expression.within.bind
    intro condition head _ derives
    exact .step (.discard .expect) fun _ => .pure fun _ => ⟨head, rfl, derives⟩
  refine headTakes.attempt_bind (fun error session => messages_report_bind error session) ?_
  rintro condition _ _ ⟨head, rfl, derives⟩
  apply bodyTakes.bind
  intro statements taken _ forms
  apply (takes_elsePart bodyTakes condition.expr).bind
  intro otherwise other _ otherForms
  apply Takes.lift_bind .expect
  rintro loc _ _ rfl
  refine .returns (Takes.lift (.ends fun marks rest ends =>
    ⟨.ifWord :: (head ++ .thenWord :: (taken ++ (other ++ [.endWord]))), marks, by simp, ?_, ends⟩))
  simpa [Stmt.unlocated] using Forms.conditionBlock topLevel derives forms otherForms

theorem takes_definition (found : ∀ tokens, pre tokens → headOf tokens = .defWord) :
    Takes pre (definition body) fun s => TakenStatement true [s] := by
  apply (Takes.advance found).lift_bind
  rintro start _ _ rfl
  apply Takes.expectIdent.lift_bind
  rintro ⟨name, nameLoc⟩ _ _ rfl
  refine .peek fun token => ?_
  cases token with
  | eq =>
    refine .step (.discard (.lift .advance)) fun _ => ?_
    apply takes_expression.within.lift_bind
    intro value tokens _ derives
    exact .returns (Takes.lift (.ends fun marks rest ends =>
      ⟨.defWord :: .ident name :: .eq :: tokens, marks, rfl, .defineExpr name derives, ends⟩))
  | doWord =>
    refine .step (.discard (.lift .advance)) fun _ => ?_
    apply bodyTakes.bind
    intro statements taken _ forms
    apply Takes.lift_bind .expect
    rintro closing _ _ rfl
    refine .returns (Takes.lift (.ends fun marks rest ends =>
      ⟨.defWord :: .ident name :: .doWord :: (taken ++ [.endWord]), marks, by simp, ?_, ends⟩))
    simpa [Stmt.unlocated, Ident.unlocated] using Forms.defineBlock name forms
  | _ => exact .fails

theorem takes_statement (topLevel : Bool) :
    Takes pre (statement body topLevel) (TakenStatement topLevel) := by
  refine .peek fun token => ?_
  cases token with
  | ifWord => exact takes_conditionBlock bodyTakes fun _ holds => holds.2
  | whenWord => exact takes_triggerBlock fun _ holds => holds.2
  | defWord =>
    cases topLevel with
    | true =>
      exact .query (fun _ => rfl) fun _ _ =>
        .returns (takes_definition bodyTakes fun _ holds => holds.1.2)
    | false =>
      refine .fails fun session statements rest ran => ?_
      obtain ⟨start, middle, _, defined⟩ := run_bind_eq_ok_iff.mp ran
      obtain ⟨s, middle, _, failed⟩ := run_bind_eq_ok_iff.mp defined
      cases failed
  | useWord => exact .returns (Takes.lift (takes_useStatement fun _ holds => holds.2))
  | ident name =>
    refine .peekSecond fun second => ?_
    cases second with
    | ident _ => exact .returns takes_inlineTrigger.lift
    | _ => exact .returns (Takes.lift (takes_assignment fun _ holds => holds.1.2))
  | _ => exact .fails

end Blocks

/-! ## Programs -/

theorem Simple.starts {s : Stmt} (simple : Simple tokens s) :
    (∃ name, headOf tokens = .ident name) ∨ headOf tokens = .useWord := by
  cases simple with
  | assign isName derives _ _ =>
    obtain ⟨first, others, rfl, _⟩ := derives.starts
    exact .inl ⟨_, isName⟩
  | trigger isAction _ => cases isAction <;> exact .inl ⟨_, rfl⟩
  | use name => exact .inr rfl

theorem Forms.starts {statements : List Stmt}
    (forms : Forms (.statement topLevel) tokens statements) :
    closesBlock (headOf tokens) = false := by
  cases forms with
  | simple _ simple =>
    rcases simple.starts with ⟨name, isName⟩ | isUse
    · rw [isName]
      rfl
    · rw [isUse]
      rfl
  | _ => rfl

theorem takes_blockBody (fuel : Nat) :
    Takes pre (blockBody fuel)
      (Gathered (Forms (.statement false)) Stmt.unlocated closesBlock fuel) := by
  induction fuel generalizing pre with
  | zero => exact takes_none rfl
  | succ fuel ih =>
    have takes : TakesStatements false (blockBody fuel) :=
      ih.imp fun _ _ _ gathered => .of_listing gathered.lists
    exact takes_gather ((takes_statement takes false).orRecover _) (fun _ _ => Forms.starts) ih

theorem takes_programBody {block : Parser (List Stmt)} [GoesOn block]
    (blockTakes : TakesStatements false block) (fuel : Nat) :
    Takes pre (programBody block fuel)
      (Gathered (Forms (.statement true)) Stmt.unlocated (fun t => t = .eof) fuel) := by
  induction fuel generalizing pre with
  | zero => exact takes_none rfl
  | succ fuel ih =>
    rw [programBody_succ]
    exact takes_gather ((takes_statement blockTakes true).orRecover _) (fun _ _ => Forms.starts) ih

/-- The tokens of a script that is read without an error form its statements. -/
theorem forms_of_parsed {front : List PlacedToken} {last : PlacedToken} {program : List Stmt}
    (noEof : ∀ placed ∈ front, placed.token ≠ .eof) (isEof : last.token = .eof)
    (parsed : parseTokens (front ++ [last]) = (program, [])) :
    Forms (.statements true) (tokensOf front) (program.map Stmt.unlocated) := by
  obtain ⟨rest, ran⟩ := parseTokens_eq_iff.mp parsed
  have ends : EndsInput (front ++ [last]) := by
    obtain ⟨token, loc⟩ := last
    cases isEof
    exact ⟨front, loc, rfl⟩
  have blockTakes : TakesStatements false (blockBody (front ++ [last]).length) :=
    (takes_blockBody _).imp fun _ _ _ gathered =>
      .of_listing gathered.lists
  obtain ⟨taken, whole, restEnds, gathered⟩ :=
    @takes_programBody (fun _ => True) _ _ blockTakes _ _ _ _ ran rfl rfl ends True.intro
  have whole : front ++ [last] = taken ++ rest := whole
  have restEnds : rest ≠ [] := restEnds.ne_nil
  have atEnd : headToken rest = .eof := by
    have closed := gathered.closed (by
      rw [← tokensOf_append]
      exact Nat.le_of_eq ((length_map _).trans (congrArg List.length whole.symm)))
    rw [headToken_eq]
    exact of_decide_eq_true closed
  -- The first token of the rest is the end of the input, so nothing of `front` is left.
  have isFront : taken = front := by
    rcases append_eq_append_iff.mp whole with ⟨more, isTaken, isLast⟩ | ⟨more, isFront, isRest⟩
    · have single := congrArg List.length isLast
      have someRest := length_pos_iff.mpr restEnds
      simp only [length_append, length_singleton] at single
      rw [isTaken, eq_nil_of_length_eq_zero (l := more) (by omega), append_nil]
    · cases more with
      | nil => rw [isFront, append_nil]
      | cons first others =>
        rw [isRest] at atEnd
        exact absurd atEnd (noEof first (by rw [isFront]; simp))
  exact isFront ▸ Forms.of_listing gathered.lists

end Grammar

end AutomationScript
