import AutomationScript.Proofs.Grammar.Sentences

/-!
# Places in bodies

`innermost?` tells from the tokens before a place what the innermost block that is open there holds.
What the rules form closes all blocks that it opens (`Forms.blocks_foldl`).
-/

namespace AutomationScript

open List AutomationScript.Reader

namespace Grammar

variable {tokens : List Token} {token : Token}

/-! ## Open blocks -/

/-- What is listed in a block. -/
inductive Holds where
  | statements
  /-- The actions of a trigger. -/
  | actions
deriving DecidableEq, Repr

/-- The blocks that are open at a place of a script. -/
structure Nesting where
  /-- What the blocks hold, from the innermost on. -/
  blocks : List Holds
  /-- What the next `do` opens a block of. -/
  next : Holds

/-- The open blocks after one more token. -/
def Nesting.step (nesting : Nesting) : Token → Nesting
  | .thenWord => { nesting with blocks := .statements :: nesting.blocks }
  | .defWord => { nesting with next := .statements }
  | .whenWord => { nesting with next := .actions }
  | .doWord => { nesting with blocks := nesting.next :: nesting.blocks }
  | .endWord => { nesting with blocks := nesting.blocks.tail }
  | _ => nesting

/-- What the innermost block holds that is open after these tokens. -/
def innermost? (tokens : List Token) : Option Holds :=
  (tokens.foldl Nesting.step ⟨[], .statements⟩).blocks.head?

def keepsBlocks : Token → Bool
  | .thenWord | .doWord | .endWord => false
  | _ => true

theorem blocks_foldl_of_keepsBlocks (keeps : tokens.all keepsBlocks = true) (nesting : Nesting) :
    (tokens.foldl Nesting.step nesting).blocks = nesting.blocks := by
  induction tokens generalizing nesting with
  | nil => rfl
  | cons token tokens ih =>
    obtain ⟨keepsFirst, keepsMore⟩ := Bool.and_eq_true_iff.mp keeps
    have kept : (nesting.step token).blocks = nesting.blocks := by
      cases token <;> first | rfl | cases keepsFirst
    rw [foldl_cons, ih keepsMore, kept]

/-! ## Statements without a body -/

def staysInStatement : Token → Bool
  | .thenWord | .elseWord | .endWord | .doWord | .defWord | .newline | .semicolon | .eof => false
  | _ => true

theorem keepsBlocks_of_staysInStatement (stays : staysInStatement token = true) :
    keepsBlocks token = true := by
  cases token <;> first | rfl | cases stays

theorem isTerminator_of_staysInStatement (stays : staysInStatement token = true) :
    isTerminator token = false := by
  cases token <;> first | rfl | cases stays

theorem all_joined {test : Token → Bool} {elements : List (List Token)} {separators : List Token}
    (each : ∀ element ∈ elements, element.all test = true)
    (between : ∀ separator ∈ separators, test separator = true) :
    (joined elements separators).all test = true := by
  induction elements generalizing separators with
  | nil => rfl
  | cons element elements ih =>
    have first := each element mem_cons_self
    cases separators with
    | nil => exact first
    | cons separator separators =>
      have isSeparator := between separator mem_cons_self
      have more := ih (fun later member => each later (mem_cons_of_mem element member))
        fun later member => between later (mem_cons_of_mem separator member)
      rw [joined, all_append, all_cons, first, isSeparator, more]
      rfl

theorem Derives.all_stay {symbol : Symbol} {e : Expr} (derives : Derives symbol tokens e) :
    tokens.all staysInStatement = true := by
  induction derives with
  | tighter _ _ ih => exact ih
  | binary joins _ _ _ leftStays rightStays =>
    rw [all_append, all_cons, leftStays, rightStays]
    cases joins <;> rfl
  | negated _ ih => exact ih
  | parenthesized _ ih | single _ ih =>
    rw [all_append, all_cons, ih]
    rfl
  | dotted base keyed => cases keyed <;> rfl
  | subscript base _ ih => exact ih
  | @list items separators fold _ _ separates _ _ ih =>
    have each : ∀ element ∈ items.map Prod.fst, element.all staysInStatement = true := by
      intro element member
      obtain ⟨item, isItem, rfl⟩ := mem_map.mp member
      exact ih item isItem
    have between : ∀ separator ∈ separators, staysInStatement separator = true := by
      intro separator member
      rcases separates separator member with rfl | rfl | rfl <;> rfl
    rw [all_append, all_cons, all_joined each between]
    rfl
  | _ => rfl

theorem Argument.all_stay {argument : TriggerArg} (isArgument : Argument tokens argument) :
    tokens.all staysInStatement = true := by
  cases isArgument <;> rfl

theorem Restricts.all_stay {condition : Option Expr} (restricts : Restricts tokens condition) :
    tokens.all staysInStatement = true := by
  cases restricts with
  | never => rfl
  | condition derives => exact derives.all_stay

theorem Simple.all_stay {s : Stmt} (simple : Simple tokens s) :
    tokens.all staysInStatement = true := by
  cases simple with
  | assign _ targetDerives valueDerives restricts =>
    rw [all_append, all_cons, all_append, targetDerives.all_stay,
      valueDerives.all_stay, restricts.all_stay]
    rfl
  | trigger isAction isCondition =>
    rw [all_append, all_cons, isAction.all_stay, isCondition.all_stay]
    rfl
  | use name => rfl

/-! ## Blocks are closed again -/

theorem blocks_foldl_of_stays (stay : tokens.all staysInStatement = true) (nesting : Nesting) :
    (tokens.foldl Nesting.step nesting).blocks = nesting.blocks := by
  refine blocks_foldl_of_keepsBlocks (all_eq_true.mpr fun token member => ?_) nesting
  exact keepsBlocks_of_staysInStatement (all_eq_true.mp stay token member)

theorem keepsBlocks_of_isTerminator (terminates : isTerminator token = true) :
    keepsBlocks token = true := by
  cases token <;> first | rfl | cases terminates

theorem Listing.all_keep {actions : List TriggerArg} (listing : Listing Action tokens actions) :
    tokens.all keepsBlocks = true := by
  have item : ∀ tokens actions, Action tokens actions → tokens.all keepsBlocks = true := by
    rintro tokens actions ⟨action, _, argument⟩
    cases argument <;> rfl
  induction listing with
  | nil => rfl
  | skip terminates _ ih =>
    rw [all_cons, keepsBlocks_of_isTerminator terminates, ih]
    rfl
  | last isAction => exact item _ _ isAction
  | cons isAction terminates _ ih =>
    rw [all_append, all_cons, item _ _ isAction,
      keepsBlocks_of_isTerminator terminates, ih]
    rfl

theorem blocks_step_of_isTerminator (terminates : isTerminator token = true) (nesting : Nesting) :
    nesting.step token = nesting := by
  cases token <;> first | rfl | cases terminates

theorem blocks_foldl_end (tokens : List Token) (nesting : Nesting) :
    ((tokens ++ [Token.endWord]).foldl Nesting.step nesting).blocks =
      (tokens.foldl Nesting.step nesting).blocks.tail := by
  rw [foldl_append]
  rfl

variable {role : Role} {statements : List Stmt}

/-- What the rules form closes all blocks that it opens. -/
theorem Forms.blocks_foldl (forms : Forms role tokens statements) (nesting : Nesting) :
    (tokens.foldl Nesting.step nesting).blocks = nesting.blocks := by
  induction forms generalizing nesting with
  | simple topLevel simple => exact blocks_foldl_of_stays simple.all_stay nesting
  | triggerBlock topLevel isCondition listing _ =>
    rw [foldl_cons, foldl_append, foldl_cons, blocks_foldl_end,
      blocks_foldl_of_keepsBlocks listing.all_keep]
    exact blocks_foldl_of_stays isCondition.all_stay _
  | conditionBlock topLevel derives _ _ bodyIh otherIh =>
    rw [foldl_cons, foldl_append, foldl_cons, foldl_append,
      blocks_foldl_end, otherIh, bodyIh]
    exact blocks_foldl_of_stays derives.all_stay _
  | defineExpr name derives => exact blocks_foldl_of_stays derives.all_stay _
  | defineBlock name _ ih =>
    rw [foldl_cons, foldl_cons, foldl_cons, blocks_foldl_end, ih]
    rfl
  | noOther | nil => rfl
  | other condition _ ih => exact ih _
  | skip terminates _ ih => rw [foldl_cons, ih, blocks_step_of_isTerminator terminates]
  | last _ ih => exact ih nesting
  | cons _ terminates _ firstIh moreIh =>
    rw [foldl_append, foldl_cons, moreIh, blocks_step_of_isTerminator terminates,
      firstIh]

/-! ## Statements that are lost -/

/-- The first token of a statement without a body. -/
def startsSimple : Token → Bool
  | .ident _ | .useWord => true
  | _ => false

/-- One statement, in the list or in the body of a definition, is missing from the second list. -/
inductive LosesOne (lost : Stmt) : List Stmt → List Stmt → Prop
  | here (rest : List Stmt) : LosesOne lost (lost :: rest) rest
  | inside (name : Ident) (tag : Tag) (rest : List Stmt) {body body' : List Stmt} :
      LosesOne lost body body' →
      LosesOne lost (.defineBlock name body tag :: rest) (.defineBlock name body' tag :: rest)
  | later (s : Stmt) {rest rest' : List Stmt} :
      LosesOne lost rest rest' → LosesOne lost (s :: rest) (s :: rest')

namespace LosesOne

variable {lost : Stmt} {statements remaining : List Stmt}

theorem after (first : List Stmt) (loses : LosesOne lost statements remaining) :
    LosesOne lost (first ++ statements) (first ++ remaining) := by
  induction first with
  | nil => exact loses
  | cons s first ih => exact .later s ih

theorem before (loses : LosesOne lost statements remaining) (rest : List Stmt) :
    LosesOne lost (statements ++ rest) (remaining ++ rest) := by
  induction loses with
  | here others => exact .here (others ++ rest)
  | inside name tag others body _ => exact .inside name tag (others ++ rest) body
  | later s _ ih => exact .later s ih

end LosesOne

/-! ## Splits -/

section Splits

variable {first second front back : List Token} {mark : Token}

theorem front_or_back (whole : first ++ second = front ++ mark :: back) :
    (∃ more, first = front ++ mark :: more ∧ back = more ++ second) ∨
      ∃ more, front = first ++ more ∧ second = more ++ mark :: back := by
  rcases append_eq_append_iff.mp whole with ⟨more, isFront, isSecond⟩ | ⟨more, isFirst, isRest⟩
  · exact .inr ⟨more, isFront, isSecond⟩
  · cases more with
    | nil =>
      rw [append_nil] at isFirst
      exact .inr ⟨[], by rw [isFirst, append_nil], isRest.symm⟩
    | cons token others =>
      injection isRest with isMark isBack
      exact .inl ⟨others, by rw [isFirst, isMark], isBack⟩

theorem exists_front (whole : first ++ second = front ++ mark :: back) (absent : mark ∉ first) :
    ∃ more, front = first ++ more ∧ second = more ++ mark :: back := by
  rcases front_or_back whole with ⟨more, isFirst, _⟩ | found
  · exact absurd (by simp [isFirst]) absent
  · exact found

theorem exists_back (whole : first ++ second = front ++ mark :: back) (absent : mark ∉ second) :
    ∃ more, first = front ++ mark :: more ∧ back = more ++ second := by
  rcases front_or_back whole with found | ⟨more, _, isSecond⟩
  · exact found
  · exact absurd (by simp [isSecond]) absent

theorem not_mem_of_stays (stay : first.all staysInStatement = true)
    (terminates : isTerminator mark = true) : mark ∉ first := by
  intro member
  have stays := all_eq_true.mp stay mark member
  rw [isTerminator_of_staysInStatement stays] at terminates
  cases terminates

theorem not_mem_opening {opening closing : Token} (isOpening : isTerminator opening = false)
    (stay : first.all staysInStatement = true) (isClosing : isTerminator closing = false)
    (terminates : isTerminator mark = true) : mark ∉ opening :: first ++ [closing] := by
  have notInside := not_mem_of_stays stay terminates
  simp only [cons_append, mem_cons, mem_append, not_mem_nil, or_false]
  rintro (rfl | inside | rfl)
  · rw [isOpening] at terminates
    cases terminates
  · exact notInside inside
  · rw [isClosing] at terminates
    cases terminates

theorem not_mem_end (terminates : isTerminator mark = true) : mark ∉ [Token.endWord] := by
  intro member
  obtain rfl := mem_singleton.mp member
  cases terminates

theorem innermost_triggerBlock {waits does : List Token} {condition : TriggerArg}
    {actions : List TriggerArg} (isCondition : Argument waits condition)
    (listing : Listing Action does actions)
    (whole : .whenWord :: (waits ++ .doWord :: (does ++ [.endWord])) = front ++ mark :: back)
    (terminates : isTerminator mark = true) (nesting : Nesting) :
    (front.foldl Nesting.step nesting).blocks.head? = some .actions := by
  have opened : (.whenWord :: waits ++ [.doWord]) ++ (does ++ [.endWord]) =
      front ++ mark :: back := by
    rw [← whole]
    simp
  have absent : mark ∉ .whenWord :: waits ++ [.doWord] :=
    not_mem_opening rfl isCondition.all_stay rfl terminates
  obtain ⟨more, rfl, isBody⟩ := exists_front opened absent
  obtain ⟨after, rfl, _⟩ := exists_back isBody (not_mem_end terminates)
  have keeps : more.all keepsBlocks = true := by
    have all := listing.all_keep
    rw [all_append] at all
    exact (Bool.and_eq_true_iff.mp all).1
  rw [foldl_append, blocks_foldl_of_keepsBlocks keeps]
  cases isCondition <;> rfl

theorem startsSimple_of_isTerminator (terminates : isTerminator token = true) :
    startsSimple token = false := by
  cases token <;> first | rfl | cases terminates

theorem startsSimple_of_append (starts : startsSimple (headOf (first ++ second)) = true)
    (ends : startsSimple (headOf second) = false) : startsSimple (headOf first) = true := by
  cases first with
  | nil =>
    rw [nil_append, ends] at starts
    cases starts
  | cons token others => exact starts

end Splits

end Grammar

end AutomationScript
