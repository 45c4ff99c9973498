import AutomationScript.Pipeline.Stage
import AutomationScript.Proofs.Lowering.Blocks
import AutomationScript.Proofs.Runtime

/-!
# The meaning of blocks

`flattened` gives every assignment the conditions of the blocks that are open before it, without a
stack.  `execute` runs through the statements with a stack of blocks and skips those whose
conditions do not hold.  Flattening gives the flattened program, whose assignments are carried out
as the interpreter carries them out, unless a trigger stands inside a block (`lower_blocks_iff`).
-/

namespace AutomationScript

open List

variable {program lowered : List Stmt}

/-! ## Open blocks -/

/-- The conditions of the blocks that are open after the statements, the outermost first.  A block
is still open if what follows its opening closes no more blocks than it opens. -/
def openConditions : List Stmt → List Expr
  | [] => []
  | .openBlock condition _ :: rest =>
    if (blockDepth 0 rest).isSome then condition :: openConditions rest else openConditions rest
  | _ :: rest => openConditions rest

/-- Statements close some blocks that were open before them and leave some of their own open. -/
theorem exists_blockDepth_eq (program : List Stmt) :
    ∃ closed, ∀ depth, blockDepth depth program =
      if closed ≤ depth then some (depth - closed + (openConditions program).length) else none := by
  induction program with
  | nil =>
    exact ⟨0, fun depth => rfl⟩
  | cons s rest ih =>
    obtain ⟨closed, ih⟩ := ih
    cases s with
    | openBlock condition tag =>
      have opened : ∀ depth, blockDepth depth (.openBlock condition tag :: rest) =
          blockDepth (depth + 1) rest := fun depth => blockDepth_cons _ _ _
      cases closed with
      | zero =>
        refine ⟨0, fun depth => ?_⟩
        have stays : (blockDepth 0 rest).isSome = true := by
          rw [ih 0, if_pos (Nat.le_refl 0)]
          rfl
        have opens : openConditions (.openBlock condition tag :: rest) =
            condition :: openConditions rest := if_pos stays
        rw [opened, ih, opens, if_pos (Nat.zero_le _), if_pos (Nat.zero_le _),
          length_cons, Nat.sub_zero, Nat.sub_zero]
        congr 1
        omega
      | succ closed =>
        refine ⟨closed, fun depth => ?_⟩
        have goes : ¬ (blockDepth 0 rest).isSome = true := by
          rw [ih 0, if_neg (by omega)]
          exact Bool.false_ne_true
        have opens : openConditions (.openBlock condition tag :: rest) =
            openConditions rest := if_neg goes
        rw [opened, ih, opens]
        simp only [Nat.add_le_add_iff_right, Nat.add_sub_add_right]
    | closeBlock tag =>
      refine ⟨closed + 1, fun depth => ?_⟩
      rw [blockDepth_cons]
      cases depth with
      | zero =>
        have tooMany : ¬ closed + 1 ≤ 0 := by
          omega
        rw [if_neg tooMany]
        rfl
      | succ depth =>
        change blockDepth depth rest = _
        simp only [ih, openConditions, Nat.add_le_add_iff_right, Nat.add_sub_add_right]
    | _ => exact ⟨closed, ih⟩

theorem length_openConditions {depth : Nat} (counted : blockDepth 0 program = some depth) :
    (openConditions program).length = depth := by
  obtain ⟨closed, counts⟩ := exists_blockDepth_eq program
  rw [counts] at counted
  by_cases none : closed ≤ 0
  · rw [if_pos none] at counted
    have same := Option.some.inj counted
    omega
  · rw [if_neg none] at counted
    cases counted

theorem openConditions_append_open (front : List Stmt) (condition : Expr) (tag : Tag) :
    openConditions (front ++ [.openBlock condition tag]) = openConditions front ++ [condition] := by
  induction front with
  | nil => rfl
  | cons s rest ih =>
    cases s with
    | openBlock outer outerTag =>
      have sameDepth : (blockDepth 0 (rest ++ [.openBlock condition tag])).isSome =
          (blockDepth 0 rest).isSome := by
        rw [blockDepth_append]
        cases blockDepth 0 rest <;> rfl
      simp only [cons_append, openConditions, sameDepth, ih]
      split <;> rfl
    | _ => exact ih

theorem openConditions_append_close (front : List Stmt) (tag : Tag) :
    openConditions (front ++ [.closeBlock tag]) = (openConditions front).dropLast := by
  induction front with
  | nil => rfl
  | cons s rest ih =>
    cases s with
    | openBlock outer outerTag =>
      simp only [cons_append, openConditions, ih, blockDepth_append]
      cases counted : blockDepth 0 rest with
      | none => rfl
      | some depth =>
        have length := length_openConditions counted
        cases depth with
        | zero =>
          have empty : openConditions rest = [] := length_eq_zero_iff.mp length
          rw [empty]
          rfl
        | succ depth =>
          have nonempty : openConditions rest ≠ [] := by
            intro empty
            rw [empty] at length
            cases length
          exact (dropLast_cons_of_ne_nil nonempty).symm
    | _ => exact ih

theorem openConditions_append_other {s : Stmt} (noMark : s.isBlockMark = false)
    (front : List Stmt) : openConditions (front ++ [s]) = openConditions front := by
  have sameDepth : ∀ depth, s.depthAfter depth = some depth := by
    intro depth
    cases s with
    | openBlock condition tag => cases noMark
    | closeBlock tag => cases noMark
    | _ => rfl
  induction front with
  | nil =>
    cases s with
    | openBlock condition tag => cases noMark
    | _ => rfl
  | cons first rest ih =>
    cases first with
    | openBlock outer outerTag =>
      have same : blockDepth 0 (rest ++ [s]) = blockDepth 0 rest := by
        rw [blockDepth_append]
        cases blockDepth 0 rest with
        | none => rfl
        | some depth =>
          change blockDepth depth [s] = some depth
          rw [blockDepth_cons, sameDepth]
          rfl
      simp only [cons_append, openConditions, same, ih]
    | _ => exact ih

/-! ## Flattened programs -/

/-- The conditions of blocks, the outermost first, and the own condition of an assignment:
`outer and (inner and own)`. -/
def nestedCondition (blocks : List Expr) (own : Option Expr) : Option Expr :=
  match blocks with
  | [] => own
  | block :: inner =>
    match nestedCondition inner own with
    | none => some block
    | some rest =>
      some (.compound .and [block, rest] (Location.unionAll [block.loc, rest.loc]))

theorem nestedCondition_append (outer inner : List Expr) (own : Option Expr) :
    nestedCondition (outer ++ inner) own = nestedCondition outer (nestedCondition inner own) := by
  induction outer with
  | nil => rfl
  | cons block outer ih => rw [cons_append, nestedCondition, ih, nestedCondition]

/-- The statement under the conditions of blocks. -/
def Stmt.governed (blocks : List Expr) : Stmt → Stmt
  | .assign target value own tag =>
    .assign target value (nestedCondition blocks own) (if blocks.isEmpty then tag else tag.rebuilt)
  | s => s

/-- The program without its block marks, every assignment under the conditions of the blocks that
are open where it stands. -/
def flattened (program : List Stmt) : List Stmt :=
  (program.mapIdx fun i s => s.governed (openConditions (program.take i))).filter fun s =>
    !s.isBlockMark

/-- A trigger stands where a block is open. -/
def TriggerInBlock (program : List Stmt) : Prop :=
  ∃ front condition actions tag back,
    program = front ++ .trigger condition actions tag :: back ∧ openConditions front ≠ []

namespace Blocks

theorem underAll_eq_nestedCondition (blocks : List Expr) (own : Option Expr) :
    underAll blocks own = nestedCondition blocks.reverse own := by
  induction blocks generalizing own with
  | nil => rfl
  | cons block outer ih =>
    have innermost : nestedCondition [block] own = some (under block own) := by
      cases own <;> rfl
    rw [reverse_cons, nestedCondition_append, innermost, ← ih]
    rfl

theorem flatten_assign
    (blocks : List Expr) (target value : Expr) (own : Option Expr) (tag : Tag) (rest : List Stmt) :
    flatten blocks (.assign target value own tag :: rest) = (do
      let others ← flatten blocks rest
      return (Stmt.assign target value own tag).governed blocks.reverse :: others) := by
  have governs : (if blocks.isEmpty then Stmt.assign target value own tag
        else .assign target value (underAll blocks own) tag.rebuilt) =
      (Stmt.assign target value own tag).governed blocks.reverse := by
    rw [underAll_eq_nestedCondition, Stmt.governed, isEmpty_reverse]
    cases blocks <;> rfl
  rw [flatten, governs]

/-- The statements `rest` after `front`, each under the blocks that are open where it stands. -/
def flattenedAfter (front rest : List Stmt) : List Stmt :=
  (rest.mapIdx fun i s => s.governed (openConditions (front ++ rest.take i))).filter fun s =>
    !s.isBlockMark

theorem flattenedAfter_cons (front : List Stmt) (s : Stmt) (rest : List Stmt) :
    flattenedAfter front (s :: rest) =
      (if s.isBlockMark then [] else [s.governed (openConditions front)]) ++
        flattenedAfter (front ++ [s]) rest := by
  have sameMark : (s.governed (openConditions front)).isBlockMark = s.isBlockMark := by
    cases s <;> rfl
  have later : ∀ i, front ++ (s :: rest).take (i + 1) = (front ++ [s]) ++ rest.take i := by
    intro i
    rw [take_succ_cons, append_assoc, singleton_append]
  unfold flattenedAfter
  rw [mapIdx_cons, filter_cons]
  simp only [later, take_zero, append_nil, sameMark]
  cases s.isBlockMark <;> rfl

/-- A trigger among `rest` stands where a block is open that `rest` or `front` opened. -/
def TriggerAfter (front rest : List Stmt) : Prop :=
  ∃ middle condition actions tag back,
    rest = middle ++ .trigger condition actions tag :: back ∧ openConditions (front ++ middle) ≠ []

theorem triggerAfter_cons_iff (front : List Stmt) (s : Stmt) (rest : List Stmt) :
    TriggerAfter front (s :: rest) ↔
      ((∃ condition actions tag, s = .trigger condition actions tag) ∧ openConditions front ≠ []) ∨
        TriggerAfter (front ++ [s]) rest := by
  constructor
  · rintro ⟨middle, condition, actions, tag, back, whole, isOpen⟩
    cases middle with
    | nil =>
      injection whole with isTrigger _
      rw [append_nil] at isOpen
      exact .inl ⟨⟨condition, actions, tag, isTrigger⟩, isOpen⟩
    | cons first middle =>
      injection whole with isFirst whole
      subst isFirst
      refine .inr ⟨middle, condition, actions, tag, back, whole, ?_⟩
      rwa [append_assoc, singleton_append]
  · rintro (⟨⟨condition, actions, tag, rfl⟩, isOpen⟩ |
      ⟨middle, condition, actions, tag, back, rfl, isOpen⟩)
    · exact ⟨[], condition, actions, tag, rest, rfl, by rwa [append_nil]⟩
    · refine ⟨s :: middle, condition, actions, tag, back, rfl, ?_⟩
      rwa [append_assoc, singleton_append] at isOpen

/-- A run of flattening fails if a trigger stands inside a block, and gives these statements
otherwise. -/
def Flattens (inBlock : Prop) (flat : List Stmt) (outcome : Lowering (List Stmt)) : Prop :=
  (inBlock ∧ ∃ failure, outcome = .error failure) ∨ (¬ inBlock ∧ outcome = .ok flat)

theorem Flattens.cons {inBlock inBlock' : Prop} {flat : List Stmt}
    {outcome : Lowering (List Stmt)} (later : Flattens inBlock flat outcome)
    (same : inBlock' ↔ inBlock) (s : Stmt) :
    Flattens inBlock' (s :: flat) (outcome >>= fun others => pure (s :: others)) := by
  rcases later with ⟨inside, failure, rfl⟩ | ⟨outside, rfl⟩
  · exact .inl ⟨same.mpr inside, failure, rfl⟩
  · exact .inr ⟨mt same.mp outside, rfl⟩

/-- The run of flattening over `rest`: the stack holds what `front` left open. -/
theorem flatten_after (front : List Stmt) {rest : List Stmt}
    (noDefinition : ∀ s ∈ rest, s.isDefinitional = false)
    (closed : blockDepth (openConditions front).length rest = some 0) :
    Flattens (TriggerAfter front rest) (flattenedAfter front rest)
      (flatten (openConditions front).reverse rest) := by
  induction rest generalizing front with
  | nil =>
    have empty : openConditions front = [] :=
      length_eq_zero_iff.mp (Option.some.inj closed)
    refine .inr ⟨?_, ?_⟩
    · rintro ⟨middle, condition, actions, tag, back, whole, _⟩
      cases middle <;> cases whole
    · rw [empty]
      rfl
  | cons s rest ih =>
    obtain ⟨notHere, notLater⟩ := forall_mem_cons.mp noDefinition
    rw [blockDepth_cons] at closed
    rw [triggerAfter_cons_iff, flattenedAfter_cons]
    cases s with
    | openBlock condition tag =>
      have stack : (openConditions (front ++ [.openBlock condition tag])).reverse =
          condition :: (openConditions front).reverse := by
        rw [openConditions_append_open, reverse_append]
        rfl
      have deeper : blockDepth
          (openConditions (front ++ [.openBlock condition tag])).length rest = some 0 := by
        rw [openConditions_append_open, length_append]
        exact closed
      have later := ih _ notLater deeper
      rw [stack] at later
      simpa [flatten, Stmt.isBlockMark] using later
    | closeBlock tag =>
      rcases eq_nil_or_concat (openConditions front) with empty | ⟨outer, block, isOpen⟩
      · rw [empty] at closed
        cases closed
      · have shorter : openConditions (front ++ [.closeBlock tag]) = outer := by
          rw [openConditions_append_close, isOpen, concat_eq_append,
            dropLast_concat]
        have stack : (openConditions front).reverse = block :: outer.reverse := by
          rw [isOpen, concat_eq_append, reverse_append]
          rfl
        rw [isOpen, concat_eq_append, length_append] at closed
        have shallower :
            blockDepth (openConditions (front ++ [.closeBlock tag])).length rest = some 0 := by
          rw [shorter]
          exact closed
        have later := ih _ notLater shallower
        rw [shorter] at later
        rw [stack]
        simpa [flatten, Stmt.isBlockMark] using later
    | assign target value own tag =>
      have same := openConditions_append_other (s := .assign target value own tag) rfl front
      have later := ih _ notLater (by rw [same]; exact closed)
      rw [same] at later
      rw [flatten_assign, reverse_reverse]
      exact later.cons (by simp) _
    | trigger condition actions tag =>
      have same := openConditions_append_other (s := .trigger condition actions tag) rfl front
      have later := ih _ notLater (by rw [same]; exact closed)
      rw [same] at later
      rw [flatten, isEmpty_reverse]
      by_cases empty : openConditions front = []
      · rw [empty] at later ⊢
        exact later.cons (by simp) _
      · have isOpen : (openConditions front).isEmpty = false := by
          simpa using empty
        refine .inl ⟨.inl ⟨⟨condition, actions, tag, rfl⟩, empty⟩, ?_⟩
        rw [isOpen]
        exact ⟨_, rfl⟩
    | defineExpr name body tag => cases notHere
    | defineBlock name body tag => cases notHere
    | use name tag => cases notHere

/-- Where flattening succeeds, the marks come in pairs and no definition is left. -/
theorem closed_of_flatten {blocks : List Expr} (ran : flatten blocks program = .ok lowered) :
    (∀ s ∈ program, s.isDefinitional = false) ∧ blockDepth blocks.length program = some 0 := by
  induction program generalizing blocks lowered with
  | nil =>
    cases blocks with
    | nil => exact ⟨forall_mem_nil _, rfl⟩
    | cons block outer => cases ran
  | cons s rest ih =>
    rw [blockDepth_cons]
    cases s with
    | openBlock condition tag =>
      obtain ⟨noDefinition, closed⟩ := ih ran
      exact ⟨forall_mem_cons.mpr ⟨rfl, noDefinition⟩, closed⟩
    | closeBlock tag =>
      cases blocks with
      | nil => cases ran
      | cons block outer =>
        obtain ⟨noDefinition, closed⟩ := ih ran
        exact ⟨forall_mem_cons.mpr ⟨rfl, noDefinition⟩, closed⟩
    | assign target value own tag =>
      obtain ⟨others, othersRan, _⟩ := bind_pure_eq_ok_iff.mp ran
      obtain ⟨noDefinition, closed⟩ := ih othersRan
      exact ⟨forall_mem_cons.mpr ⟨rfl, noDefinition⟩, closed⟩
    | trigger awaited actions tag =>
      cases blocks with
      | cons block outer => cases ran
      | nil =>
        obtain ⟨others, othersRan, _⟩ := bind_pure_eq_ok_iff.mp ran
        obtain ⟨noDefinition, closed⟩ := ih othersRan
        exact ⟨forall_mem_cons.mpr ⟨rfl, noDefinition⟩, closed⟩
    | _ => cases ran

theorem eq_flattened_of_lower (ran : lower program = .ok lowered) :
    lowered = flattened program := by
  obtain ⟨noDefinition, closed⟩ := closed_of_flatten ran
  rcases flatten_after [] noDefinition closed with ⟨_, failure, failed⟩ | ⟨_, flat⟩
  · cases ran.symm.trans failed
  · exact Except.ok.inj (ran.symm.trans flat)

end Blocks

/-! ## Carrying out assignments -/

/-- Whether the condition is true in the runtime. -/
def Expr.isTrue (r : Runtime) (e : Expr) : Bool :=
  e.value? r = some (.boolean true)

/-- An assignment that is carried out, and where it stands. -/
structure Effect where
  target : Expr
  value : Expr
  loc : Option Location

/-- What the statement does by itself: an assignment is carried out if its condition is true or
missing. -/
def Stmt.effect? (r : Runtime) : Stmt → Option Effect
  | .assign target value condition tag =>
    if condition.all (Expr.isTrue r) then some ⟨target, value, tag.loc⟩ else none
  | _ => none

/-- Runs statements.  The stack says of each open block, the innermost first, whether it is run; a
block is skipped if its condition is not true or if it stands inside a block that is skipped. -/
def execute (r : Runtime) (running : List Bool) : List Stmt → List Effect
  | [] => []
  | .openBlock condition _ :: rest =>
    execute r ((running.headD true && condition.isTrue r) :: running) rest
  | .closeBlock _ :: rest => execute r running.tail rest
  | s :: rest =>
    if running.headD true then (s.effect? r).toList ++ execute r running rest
    else execute r running rest

namespace Blocks

variable {r : Runtime}

theorem isTrue_conjoin (outer inner : Expr) :
    (conjoin outer inner).isTrue r = (outer.isTrue r && inner.isTrue r) := by
  have joined : (conjoin outer inner).value? r =
      outer.value? r >>= fun a => inner.value? r >>= fun b => r.operate? .and a b := by
    rw [Expr.value?, conjoin, Expr.term?_binary (by decide), Expr.value?, Expr.value?]
    cases outer.term? with
    | none => rfl
    | some left =>
      cases inner.term? with
      | none =>
        change none = left.value? r >>= fun a => none
        cases left.value? r <;> rfl
      | some right => rfl
  unfold Expr.isTrue
  rw [joined]
  cases outer.value? r with
  | none => rfl
  | some a =>
    cases inner.value? r with
    | none => simp
    | some b =>
      change decide (r.operate? .and a b = _) = _
      cases a <;> cases b <;> simp [Runtime.operate?]

theorem all_isTrue_nestedCondition (blocks : List Expr) (own : Option Expr) :
    (nestedCondition blocks own).all (Expr.isTrue r) =
      (blocks.all (Expr.isTrue r) && own.all (Expr.isTrue r)) := by
  induction blocks with
  | nil => rfl
  | cons block inner ih =>
    rw [all_cons, Bool.and_assoc, ← ih, nestedCondition]
    cases nestedCondition inner own with
    | none => exact (Bool.and_true _).symm
    | some rest => exact isTrue_conjoin block rest

theorem effect?_governed (blocks : List Expr) (s : Stmt) :
    (s.governed blocks).effect? r = if blocks.all (Expr.isTrue r) then s.effect? r else none := by
  cases s with
  | assign target value own tag =>
    have sameLoc : (if blocks.isEmpty then tag else tag.rebuilt).loc = tag.loc := by
      split <;> rfl
    simp only [Stmt.governed, Stmt.effect?, all_isTrue_nestedCondition, sameLoc]
    cases blocks.all (Expr.isTrue r) <;> rfl
  | _ => exact (ite_self none).symm

/-- Which of the open blocks are run, the innermost first. -/
def runningIn (r : Runtime) : List Expr → List Bool
  | [] => []
  | block :: outer => (block :: outer).all (Expr.isTrue r) :: runningIn r outer

theorem headD_runningIn (blocks : List Expr) :
    (runningIn r blocks).headD true = blocks.all (Expr.isTrue r) := by
  cases blocks <;> rfl

/-- What the flattened statements do by themselves is what the interpreter does. -/
theorem execute_of_flatten {blocks : List Expr} (ran : flatten blocks program = .ok lowered)
    (r : Runtime) :
    lowered.filterMap (Stmt.effect? r) = execute r (runningIn r blocks) program := by
  induction program generalizing blocks lowered with
  | nil =>
    rw [flatten] at ran
    split at ran
    · cases ran
      rfl
    · cases ran
  | cons s rest ih =>
    cases s with
    | openBlock condition tag =>
      have pushed : runningIn r (condition :: blocks) =
          ((runningIn r blocks).headD true && condition.isTrue r) :: runningIn r blocks := by
        rw [headD_runningIn, Bool.and_comm]
        rfl
      rw [execute, ← pushed]
      exact ih ran
    | closeBlock tag =>
      cases blocks with
      | nil => cases ran
      | cons block outer => exact ih ran
    | assign target value own tag =>
      rw [flatten_assign] at ran
      obtain ⟨others, othersRan, rfl⟩ := bind_pure_eq_ok_iff.mp ran
      have later := ih othersRan
      change _ = if (runningIn r blocks).headD true then
          ((Stmt.assign target value own tag).effect? r).toList ++
            execute r (runningIn r blocks) rest
        else execute r (runningIn r blocks) rest
      rw [headD_runningIn, ← later, filterMap_cons, effect?_governed, all_reverse]
      by_cases allTrue : blocks.all (Expr.isTrue r) = true
      · rw [if_pos allTrue, if_pos allTrue]
        cases (Stmt.assign target value own tag).effect? r <;> rfl
      · rw [if_neg allTrue, if_neg allTrue]
    | trigger condition actions tag =>
      rw [flatten] at ran
      split at ran
      · obtain ⟨others, othersRan, rfl⟩ := bind_pure_eq_ok_iff.mp ran
        have later := ih othersRan
        change others.filterMap (Stmt.effect? r) =
          if (runningIn r blocks).headD true then execute r (runningIn r blocks) rest
          else execute r (runningIn r blocks) rest
        rw [ite_self, later]
      · cases ran
    | _ => cases ran

end Blocks

/-- Flattening a program without definitions whose block marks come in pairs fails exactly when a
trigger stands inside a block.  What it gives otherwise is the flattened program, and in every
runtime the assignments of that whose conditions are true or missing are those that an interpreter
of the program carries out, in the same order. -/
theorem lower_blocks_iff
    {program : List Stmt} (noDefinition : ∀ s ∈ program, s.isDefinitional = false)
    (closed : blockDepth 0 program = some 0) :
    ((∃ failure, Blocks.lower program = .error failure) ↔ TriggerInBlock program) ∧
      (¬ TriggerInBlock program → Blocks.lower program = .ok (flattened program)) ∧
      ∀ lowered, Blocks.lower program = .ok lowered →
        ∀ r : Runtime, lowered.filterMap (Stmt.effect? r) = execute r [] program := by
  have run := Blocks.flatten_after [] noDefinition closed
  refine ⟨?_, ?_, fun lowered ran r => Blocks.execute_of_flatten ran r⟩
  · rcases run with ⟨inside, failed⟩ | ⟨outside, ran⟩
    · exact iff_of_true failed inside
    · refine iff_of_false ?_ outside
      rintro ⟨failure, failed⟩
      cases ran.symm.trans failed
  · intro outside
    rcases run with ⟨inside, _⟩ | ⟨_, ran⟩
    · exact absurd inside outside
    · exact ran

/-- A block with an assignment, an `if` with a condition of its own inside and its `else`, then a
trigger and an assignment outside. -/
def nestedElse : List Stmt :=
  let name (text : String) : Expr := .ident ⟨text, none⟩ none
  let tag (number : Nat) : Tag := ⟨none, some ⟨number, false⟩⟩
  let argument : TriggerArg := ⟨⟨"Built", none⟩, ⟨"Farm", none⟩, none, none⟩
  [.openBlock (name "outer") (tag 0),
    .assign (name "a") (.boolean true none) none (tag 1),
    .openBlock (name "inner") (tag 2),
    .assign (name "b") (.boolean false none) (some (name "own")) (tag 3),
    .closeBlock (tag 4),
    .openBlock (.compound .not [name "inner"] none) (tag 5),
    .assign (name "c") (.boolean true none) none (tag 6),
    .closeBlock (tag 7),
    .closeBlock (tag 8),
    .trigger argument [argument] (tag 9),
    .assign (name "d") (.boolean false none) none (tag 10)]

theorem lower_blocks_iff_nestedElse :
    (∀ s ∈ nestedElse, s.isDefinitional = false) ∧ blockDepth 0 nestedElse = some 0 ∧
      ¬ TriggerInBlock nestedElse ∧ Blocks.lower nestedElse = .ok (flattened nestedElse) ∧
      ∀ r : Runtime, (flattened nestedElse).filterMap (Stmt.effect? r) =
        execute r [] nestedElse := by
  have noDefinition : ∀ s ∈ nestedElse, s.isDefinitional = false := by
    decide
  have closed : blockDepth 0 nestedElse = some 0 := rfl
  obtain ⟨fails, flat, meaning⟩ := lower_blocks_iff noDefinition closed
  have outside : ¬ TriggerInBlock nestedElse := by
    rw [← fails]
    rintro ⟨failure, failed⟩
    cases failed
  exact ⟨noDefinition, closed, outside, flat outside, meaning _ (flat outside)⟩

end AutomationScript
