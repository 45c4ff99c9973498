import AutomationScript.Proofs.Document.Contents

/-!
# The triggers of a document

A trigger becomes one trigger of the document for each of its actions, and each but the first waits
for the action before it.  `TriggerStep` numbers the actions of a program by trigger and by place.
-/

namespace AutomationScript

open List

variable {number : Nat} {part program lowered : List Stmt} {s : Stmt}

/-! ## Ids -/

/-- The form of an id that the runtime knows. -/
inductive Vocabulary.Canonical (v : Vocabulary) : String → String → Prop where
  | plain {id : String} :
      v.idStem = none → id ∈ v.allowed →
      Canonical v id id
  | stemmed {stem id : String} :
      v.idStem = some stem → id ∈ v.allowed →
      Canonical v id (stem ++ id)
  /-- The id is written with its stem. -/
  | whole {stem rest : String} :
      v.idStem = some stem → rest ∈ v.allowed → stem ++ rest ∉ v.allowed →
      Canonical v (stem ++ rest) (stem ++ rest)

theorem afterStem?_eq_some_iff {stem text rest : String} :
    afterStem? stem text = some rest ↔ text = stem ++ rest := by
  rw [afterStem?]
  constructor
  · intro found
    split at found
    · next starts =>
        obtain ⟨tail, isTail⟩ := isPrefixOf_iff_prefix.mp starts
        rw [← Option.some.inj found, ← String.toList_inj, String.toList_append,
          String.toList_ofList, ← isTail, drop_left]
    · cases found
  · rintro rfl
    have starts : stem.toList.isPrefixOf (stem ++ rest).toList = true := by
      rw [String.toList_append]
      exact isPrefixOf_iff_prefix.mpr (prefix_append _ _)
    rw [if_pos starts, String.toList_append, drop_left, String.ofList_toList]

theorem Vocabulary.canonical_of_canonicalId {v : Vocabulary} {id canonical : String}
    (found : v.canonicalId id = some canonical) : v.Canonical id canonical := by
  rw [canonicalId] at found
  cases stemmed : v.idStem with
  | none =>
    rw [stemmed] at found
    dsimp only at found
    split at found
    · next allowed =>
        cases found
        exact .plain stemmed (contains_iff_mem.mp allowed)
    · cases found
  | some stem =>
    rw [stemmed] at found
    dsimp only at found
    split at found
    · next allowed =>
        cases found
        exact .stemmed stemmed (contains_iff_mem.mp allowed)
    · next notAllowed =>
        cases after : afterStem? stem id with
        | none =>
          rw [after] at found
          cases found
        | some rest =>
          rw [after] at found
          dsimp only at found
          obtain rfl := afterStem?_eq_some_iff.mp after
          split at found
          · next allowed =>
              cases found
              refine .whole stemmed (contains_iff_mem.mp allowed) fun member => ?_
              exact notAllowed (contains_iff_mem.mpr member)
          · cases found

theorem Vocabulary.Canonical.ne_empty {v : Vocabulary} {id canonical : String}
    (isCanonical : v.Canonical id canonical) (written : id ≠ "") : canonical ≠ "" := by
  cases isCanonical with
  | plain _ _ => exact written
  | whole _ _ _ => exact written
  | stemmed _ _ =>
    intro empty
    exact written (String.append_eq_empty_iff.mp empty).2

/-! ## Arguments -/

/-- The count of an argument as it is written, or one if none is. -/
def TriggerArg.Counts (arg : TriggerArg) (count : Int) : Prop :=
  (arg.count = none ∧ count = 1) ∨
    ∃ value loc, arg.count = some (.number value loc) ∧ value.value? = some (count : ℚ)

/-- A kind, an id and a count of a document are those of an argument: the kind by the name that the
runtime knows, the id in its canonical form and the count as an integer in range. -/
structure Spelled (lookup : String → Option Vocabulary) (arg : TriggerArg)
    (type id : String) (count : Int) : Prop where
  known : ∃ vocabulary, lookup arg.kind.name = some vocabulary ∧ type = vocabulary.type ∧
    vocabulary.Canonical arg.id.name id
  counted : arg.Counts count
  nonneg : 0 ≤ count
  inRange : count < 2 ^ 63

theorem Chains.Normal.spelled {lookup : String → Option Vocabulary} {arg normal : TriggerArg}
    (isNormal : Normal lookup arg normal) :
    Spelled lookup arg normal.kind.name normal.id.name normal.times := by
  obtain ⟨vocabulary, found, sameKind, canonical⟩ := isNormal.known
  obtain ⟨value, loc, n, isCount, isWhole, nonneg, inRange, given, missing⟩ := isNormal.counted
  have times : normal.times = n := by
    rw [TriggerArg.times, isCount]
    refine Number.toInt64_of_toInt? isWhole ?_
    have limit : (Nat.pow 2 63 : Int) = 2 ^ 63 := rfl
    omega
  rw [times]
  refine ⟨⟨vocabulary, found, sameKind, Vocabulary.canonical_of_canonicalId canonical⟩, ?_,
    nonneg, inRange⟩
  cases written : arg.count with
  | none => exact .inl ⟨written, missing written⟩
  | some e =>
    have same := given e written
    subst same
    exact .inr ⟨value, loc, written, Number.toInt?_eq_some_iff.mp isWhole⟩

/-! ## Actions in order -/

def Stmt.trigger? : Stmt → Option (TriggerArg × List TriggerArg)
  | .trigger condition actions _ => some (condition, actions)
  | _ => none

def triggersOf (program : List Stmt) : List (TriggerArg × List TriggerArg) :=
  program.filterMap Stmt.trigger?

/-- An action of a trigger, with the number of the trigger and the place among its actions. -/
structure TriggerStep where
  trigger : Nat
  place : Nat
  condition : TriggerArg
  action : TriggerArg

def stepsFrom (trigger : Nat) : List (TriggerArg × List TriggerArg) → List TriggerStep
  | [] => []
  | (condition, actions) :: rest =>
    actions.mapIdx (fun place action => ⟨trigger, place, condition, action⟩) ++
      stepsFrom (trigger + 1) rest

/-- The actions of a program's triggers, in order. -/
def triggerSteps (program : List Stmt) : List TriggerStep :=
  stepsFrom 0 (triggersOf program)

theorem triggersOf_append (front back : List Stmt) :
    triggersOf (front ++ back) = triggersOf front ++ triggersOf back :=
  filterMap_append

variable {triggers : List (TriggerArg × List TriggerArg)} {step : TriggerStep}

theorem exists_trigger_of_mem_stepsFrom (member : step ∈ stepsFrom number triggers) :
    ∃ actions, (step.condition, actions) ∈ triggers := by
  induction triggers generalizing number with
  | nil =>
    cases member
  | cons first rest ih =>
    obtain ⟨condition, actions⟩ := first
    rcases mem_append.mp member with here | later
    · obtain ⟨place, _, rfl⟩ := mem_mapIdx.mp here
      exact ⟨actions, mem_cons_self⟩
    · obtain ⟨actions, laterMember⟩ := ih later
      exact ⟨actions, mem_cons_of_mem _ laterMember⟩

/-- Before every action but the first of a trigger stands the action before it of that trigger. -/
theorem exists_before_of_place {j : Nat} (found : (stepsFrom number triggers)[j]? = some step)
    (later : step.place ≠ 0) :
    ∃ i before, j = i + 1 ∧ (stepsFrom number triggers)[i]? = some before ∧
      before.trigger = step.trigger ∧ step.place = before.place + 1 := by
  induction triggers generalizing number j with
  | nil =>
    cases found
  | cons first rest ih =>
    obtain ⟨condition, actions⟩ := first
    rw [stepsFrom] at found ⊢
    by_cases here : j < actions.length
    · rw [getElem?_append_left (by simpa using here), getElem?_mapIdx] at found
      obtain ⟨action, isAction, rfl⟩ := Option.map_eq_some_iff.mp found
      obtain ⟨i, rfl⟩ := Nat.exists_eq_add_one_of_ne_zero later
      have inside : i < actions.length := by
        omega
      refine ⟨i, ⟨number, i, condition, actions[i]⟩, rfl, ?_, rfl, rfl⟩
      rw [getElem?_append_left (by simpa using inside), getElem?_mapIdx,
        getElem?_eq_getElem inside]
      rfl
    · have past : actions.length ≤ j := by
        omega
      rw [getElem?_append_right (by simpa using past), length_mapIdx] at found
      obtain ⟨i, before, isNext, isBefore, sameTrigger, isPlace⟩ := ih found
      refine ⟨actions.length + i, before, by omega, ?_, sameTrigger, isPlace⟩
      rw [getElem?_append_right (by simp), length_mapIdx, Nat.add_sub_cancel_left]
      exact isBefore

/-! ## Splitting -/

namespace Chains

variable {registry : Registry}

/-- What a trigger with one action waits for and does is an action of a trigger with its condition,
or with the action before it. -/
structure Launched (registry : Registry) (step : TriggerStep) (firing : TriggerArg × TriggerArg) :
    Prop where
  action : Normal registry.action? step.action firing.2
  first : step.place = 0 → Normal registry.condition? step.condition firing.1
  later : step.place ≠ 0 → ∃ action, firing.1 = chainAfter action

variable {condition : TriggerArg} {actions : List TriggerArg}

theorem launched_of_follows (follow : Forall₂ (Follows registry) actions part) {place : Nat → Nat}
    (later : ∀ i, place i ≠ 0) :
    Forall₂ (Launched registry)
      (actions.mapIdx fun i action => ⟨number, place i, condition, action⟩) (firingsOf part) := by
  induction follow generalizing place with
  | nil =>
    exact .nil
  | @cons action _ _ _ follows _ ih =>
    obtain ⟨normal, tag, rfl, isNormal⟩ := follows
    rw [mapIdx_cons]
    refine .cons ⟨isNormal, fun first => ?_, fun _ => ⟨action, rfl⟩⟩ ?_
    · exact absurd first (later 0)
    · exact ih fun i => later (i + 1)

theorem launched_of_splitInto (number : Nat)
    (splitInto : SplitInto registry condition actions part) :
    Forall₂ (Launched registry)
      (actions.mapIdx fun place action => ⟨number, place, condition, action⟩) (firingsOf part) := by
  cases splitInto with
  | nil => exact .nil
  | cons tag awaitedNormal actionNormal follow =>
    rw [mapIdx_cons]
    exact .cons ⟨actionNormal, fun _ => awaitedNormal, fun notFirst => absurd rfl notFirst⟩
      (launched_of_follows follow Nat.succ_ne_zero)

/-- Splitting launches the actions of a program in order. -/
theorem launched_of_lower {assigned : Expr → Expr → Option Expr → Prop}
    (flat : ∀ s ∈ program, s.Flat assigned ArgsWritten)
    (ran : lower registry program = .ok lowered) (number : Nat) :
    Forall₂ (Launched registry) (stepsFrom number (triggersOf program)) (firingsOf lowered) := by
  induction program generalizing lowered number with
  | nil =>
    cases ran
    exact .nil
  | cons s rest ih =>
    obtain ⟨sFlat, restFlat⟩ := forall_mem_cons.mp flat
    obtain ⟨part, others, partRan, othersRan, rfl⟩ := lowerEach_cons_eq_ok_iff.mp ran
    rw [firingsOf_append]
    cases sFlat with
    | assign left right own tag parts =>
      cases partRan
      exact ih restFlat othersRan number
    | trigger awaited actions tag written =>
      have splitInto := (yields_lowerStmt tag written).result partRan
      exact rel_append (launched_of_splitInto number splitInto)
        (ih restFlat othersRan (number + 1))

end Chains

/-! ## Steps that leave triggers alone -/

variable {target value : Expr → Lowering (Revised Expr)}

theorem Stmt.trigger?_revise {revised : Stmt} (ran : s.revise target value = .ok revised) :
    revised.trigger? = s.trigger? := by
  cases s with
  | assign left right condition tag =>
    obtain ⟨newLeft, _, ran⟩ := bind_eq_ok_iff.mp ran
    obtain ⟨newRight, _, ran⟩ := bind_eq_ok_iff.mp ran
    obtain ⟨newCondition, _, rfl⟩ := bind_pure_eq_ok_iff.mp ran
    rfl
  | openBlock condition tag =>
    obtain ⟨newCondition, _, rfl⟩ := bind_pure_eq_ok_iff.mp ran
    rfl
  | _ =>
    cases ran
    rfl

theorem triggersOf_lowerEach {lower : Stmt → Lowering (List Stmt)}
    (each : ∀ s part, lower s = .ok part → triggersOf part = triggersOf [s])
    (ran : lowerEach lower program = .ok lowered) : triggersOf lowered = triggersOf program := by
  induction program generalizing lowered with
  | nil =>
    cases ran
    rfl
  | cons s rest ih =>
    obtain ⟨part, others, partRan, othersRan, rfl⟩ := lowerEach_cons_eq_ok_iff.mp ran
    rw [triggersOf_append, each s part partRan, ih othersRan, ← triggersOf_append]
    rfl

theorem triggersOf_reviseEach
    (ran : lowerEach (fun s => do return [← s.revise target value]) program = .ok lowered) :
    triggersOf lowered = triggersOf program := by
  refine triggersOf_lowerEach (fun s part partRan => ?_) ran
  obtain ⟨revised, sRevised, rfl⟩ := bind_pure_eq_ok_iff.mp partRan
  simp only [triggersOf, filterMap_cons, Stmt.trigger?_revise sRevised]

variable {registry : Registry}

theorem Lists.triggersOf_lowerStmt (ran : lowerStmt registry s = .ok part) :
    triggersOf part = triggersOf [s] := by
  cases s with
  | assign target value condition tag =>
    obtain ⟨newValue, _, ran⟩ := bind_eq_ok_iff.mp ran
    obtain ⟨newCondition, _, ran⟩ := bind_eq_ok_iff.mp ran
    obtain ⟨targets, _, rfl⟩ := bind_pure_eq_ok_iff.mp ran
    refine filterMap_eq_nil_iff.mpr fun s member => ?_
    obtain ⟨newTarget, _, rfl⟩ := mem_map.mp member
    rfl
  | openBlock condition tag =>
    obtain ⟨newCondition, _, rfl⟩ := bind_pure_eq_ok_iff.mp ran
    rfl
  | _ =>
    cases ran
    rfl

theorem Placeholder.triggersOf_lowerStmt (ran : lowerStmt s = .ok part) :
    triggersOf part = triggersOf [s] := by
  cases s with
  | assign target value condition tag =>
    obtain ⟨_, _, ran⟩ := bind_eq_ok_iff.mp ran
    obtain ⟨newValue, _, ran⟩ := bind_eq_ok_iff.mp ran
    obtain ⟨newCondition, _, rfl⟩ := bind_pure_eq_ok_iff.mp ran
    rfl
  | openBlock condition tag =>
    obtain ⟨_, _, rfl⟩ := bind_pure_eq_ok_iff.mp ran
    rfl
  | _ =>
    cases ran
    rfl

theorem Conditions.triggersOf_lowerStmt (ran : lowerStmt s = .ok part) :
    triggersOf part = triggersOf [s] := by
  cases s with
  | assign target value condition tag =>
    obtain ⟨newValue, _, ran⟩ := bind_eq_ok_iff.mp ran
    obtain ⟨newCondition, _, rfl⟩ := bind_pure_eq_ok_iff.mp ran
    rfl
  | _ =>
    cases ran
    rfl

theorem Blocks.triggersOf_flatten {blocks : List Expr}
    (ran : flatten blocks program = .ok lowered) : triggersOf lowered = triggersOf program := by
  induction program generalizing blocks lowered with
  | nil =>
    rw [flatten] at ran
    split at ran
    · cases ran
      rfl
    · cases ran
  | cons s rest ih =>
    cases s with
    | openBlock condition tag =>
      rw [flatten] at ran
      exact ih ran
    | closeBlock tag =>
      cases blocks with
      | nil => cases ran
      | cons _ outer => exact ih ran
    | assign target value condition tag =>
      rw [flatten] at ran
      obtain ⟨others, othersRan, rfl⟩ := bind_pure_eq_ok_iff.mp ran
      have same := ih othersRan
      split
      · exact same
      · exact same
    | trigger condition actions tag =>
      rw [flatten] at ran
      split at ran
      · obtain ⟨others, othersRan, rfl⟩ := bind_pure_eq_ok_iff.mp ran
        exact congrArg ((condition, actions) :: ·) (ih othersRan)
      · cases ran
    | _ => cases ran

/-- Between the expansion of definitions and the splitting of triggers, triggers stay as they
are. -/
theorem Stage.triggersOf_run {stage : Stage} (notDefinitions : stage ≠ .definitions)
    (notChains : stage ≠ .chains) (ran : stage.run registry program = .ok lowered) :
    triggersOf lowered = triggersOf program := by
  cases stage with
  | definitions => exact absurd rfl notDefinitions
  | wildcards => exact triggersOf_reviseEach ran
  | lists => exact triggersOf_lowerEach (fun _ _ => Lists.triggersOf_lowerStmt) ran
  | placeholders => exact triggersOf_lowerEach (fun _ _ => Placeholder.triggersOf_lowerStmt) ran
  | aliases => exact triggersOf_reviseEach ran
  | families => exact triggersOf_reviseEach ran
  | blocks => exact Blocks.triggersOf_flatten ran
  | conditions => exact triggersOf_lowerEach (fun _ _ => Conditions.triggersOf_lowerStmt) ran
  | types =>
    obtain ⟨_, _, rfl⟩ := bind_pure_eq_ok_iff.mp ran
    rfl
  | chains => exact absurd rfl notChains

/-- A lowered program is the expanded one with other assignments and with its triggers split. -/
theorem exists_expanded_of_lowerProgram (input : Stage.definitions.Input registry program)
    (ran : lowerProgram registry program = .ok lowered) :
    ∃ expanded typed, Stage.definitions.run registry program = .ok expanded ∧
      Stage.definitions.Output registry expanded ∧ Stage.types.Output registry typed ∧
      triggersOf typed = triggersOf expanded ∧ Chains.lower registry typed = .ok lowered := by
  obtain ⟨expanded, expandedRan, ran⟩ :=
    runStages_cons_eq_ok_iff.mp (runStages_of_lowerThrough ran)
  have expandedOutput := (Stage.definitions.yields_run input).result expandedRan
  let middle : List Stage :=
    [.wildcards, .lists, .placeholders, .aliases, .families, .blocks, .conditions, .types]
  change List.foldlM _ _ (middle ++ [.chains]) = _ at ran
  rw [foldlM_append] at ran
  obtain ⟨typed, typedRan, ran⟩ := bind_eq_ok_iff.mp ran
  have inOrder : Stage.InOrder .wildcards middle .types := by
    repeat first | exact .single _ | refine .cons (by decide) ?_
  have keeps : ∀ stage ∈ middle, stage ≠ .definitions ∧ stage ≠ .chains := by decide
  have yields := inOrder.yields (fun before => triggersOf before = triggersOf expanded)
    (fun stage member before input same => (stage.yields_run input).and_ofResult fun after ran =>
      ((stage.triggersOf_run (keeps stage member).1 (keeps stage member).2 ran).trans same))
    expandedOutput rfl
  obtain ⟨output, same⟩ := yields.result typedRan
  obtain ⟨split, splitRan, ran⟩ := bind_eq_ok_iff.mp ran
  cases ran
  exact ⟨expanded, typed, expandedRan, expandedOutput, output, same, splitRan⟩

theorem written_of_mem_triggersOf {expanded : List Stmt}
    (output : Stage.definitions.Output registry expanded) {condition : TriggerArg}
    {actions : List TriggerArg} (member : (condition, actions) ∈ triggersOf expanded) :
    condition.Written := by
  obtain ⟨s, sMember, isTrigger⟩ := mem_filterMap.mp member
  have fits := output.each s sMember
  cases s with
  | trigger awaited does tag =>
    cases isTrigger
    exact fits.1
  | _ => cases isTrigger

/-! ## Documents -/

/-- The trigger at a place of a document is an action of a trigger, with what it waits for. -/
structure Trigger.Launches (registry : Registry) (j : Nat) (step : TriggerStep) (entry : Trigger) :
    Prop where
  seq : entry.seq = j
  priority : entry.priority = j
  action : Spelled registry.action? step.action entry.actionType entry.actionId entry.actionCount
  /-- The first action waits for what the trigger waits for. -/
  first : step.place = 0 →
    Spelled registry.condition? step.condition
      entry.requirementType entry.requirementId entry.requirementCount
  /-- Each later action waits for the action before. -/
  later : step.place ≠ 0 →
    entry.requirementType = "chain" ∧ entry.requirementId = "" ∧ entry.requirementCount = 0

theorem Chains.Launched.launches {firing : TriggerArg × TriggerArg}
    (launched : Launched registry step firing) (j : Nat) :
    (Trigger.ofFiring j firing).Launches registry j step := by
  refine ⟨rfl, rfl, launched.action.spelled, fun first => (launched.first first).spelled, ?_⟩
  intro notFirst
  obtain ⟨action, isChain⟩ := launched.later notFirst
  have zero : Number.toInt64 (.ofInt 0) = 0 := by
    decide +kernel
  rw [Trigger.ofFiring, isChain]
  exact ⟨rfl, rfl, zero⟩

/-- The triggers of a document are the actions of the triggers that are left once definitions are
expanded, in order, each with its kind, id and count as the runtime knows them.  A trigger that
waits for no id comes right after the action before it of the same trigger. -/
theorem triggers_of_compile
    {registry : Registry} {source : String} {document : Document}
    (compiled : compile registry source = .ok document) :
    ∃ program expanded, parse source = (program, []) ∧
      Stage.definitions.run registry program = .ok expanded ∧
      document.triggers.length = (triggerSteps expanded).length ∧
      (∀ (j : Nat) (entry : Trigger) (step : TriggerStep), document.triggers[j]? = some entry →
        (triggerSteps expanded)[j]? = some step → entry.Launches registry j step) ∧
      ∀ j entry, document.triggers[j]? = some entry → entry.requirementId = "" →
        ∃ i before step, j = i + 1 ∧ (triggerSteps expanded)[i]? = some before ∧
          (triggerSteps expanded)[j]? = some step ∧ before.trigger = step.trigger ∧
          step.place = before.place + 1 := by
  obtain ⟨program, lowered, parsed, ran, emitted⟩ := compile_eq_ok_iff.mp compiled
  have input := input_of_parse registry parsed
  obtain ⟨expanded, typed, expandedRan, written, flat, same, split⟩ :=
    exists_expanded_of_lowerProgram input ran
  have launched := Chains.launched_of_lower flat split 0
  rw [same] at launched
  have isTriggers := (reads_of_emit emitted).triggers
  have sameLength : document.triggers.length = (triggerSteps expanded).length := by
    rw [isTriggers, List.length_mapIdx, triggerSteps, launched.length_eq]
  have launches : ∀ (j : Nat) (entry : Trigger) (step : TriggerStep),
      document.triggers[j]? = some entry → (triggerSteps expanded)[j]? = some step →
        entry.Launches registry j step := by
    intro j entry step isEntry isStep
    rw [isTriggers, List.getElem?_mapIdx] at isEntry
    obtain ⟨firing, isFiring, rfl⟩ := Option.map_eq_some_iff.mp isEntry
    obtain ⟨inSteps, rfl⟩ := List.getElem?_eq_some_iff.mp isStep
    obtain ⟨inFirings, rfl⟩ := List.getElem?_eq_some_iff.mp isFiring
    exact (launched.get inSteps inFirings).launches j
  refine ⟨program, expanded, parsed, expandedRan, sameLength, launches, ?_⟩
  intro j entry isEntry noId
  have inside := (List.getElem?_eq_some_iff.mp isEntry).1
  have isStep : (triggerSteps expanded)[j]? = some (triggerSteps expanded)[j] :=
    List.getElem?_eq_getElem (sameLength ▸ inside)
  have notFirst : (triggerSteps expanded)[j].place ≠ 0 := by
    intro first
    obtain ⟨vocabulary, _, _, canonical⟩ := ((launches j entry _ isEntry isStep).first first).known
    obtain ⟨actions, member⟩ := exists_trigger_of_mem_stepsFrom (List.mem_of_getElem? isStep)
    exact canonical.ne_empty (written_of_mem_triggersOf written member).named noId
  obtain ⟨i, before, isNext, isBefore, sameTrigger, isPlace⟩ :=
    exists_before_of_place isStep notFirst
  exact ⟨i, before, _, isNext, isBefore, isStep, sameTrigger, isPlace⟩

/-- Triggers inside and outside a definition, with an assignment between them. -/
def chainScript : String :=
  "def Start do\nwhen Built city-windmill (2) do\nResearch tech-club\nArpa lhc\nend\nend\n" ++
    "use Start\nautoJobs = ON\nBuild city-bank (3) when Researched tech-club"

theorem triggers_of_compile_chainScript :
    ∃ document, compile Registry.builtin chainScript = .ok document ∧
      (document.triggers.map fun entry => (entry.requirementId, entry.actionId)) =
        [("city-windmill", "tech-club"), ("", "arpalhc"), ("tech-club", "city-bank")] ∧
      ∃ program expanded, parse chainScript = (program, []) ∧
        Stage.definitions.run Registry.builtin program = .ok expanded ∧
        document.triggers.length = (triggerSteps expanded).length ∧
        ∃ before step, (triggerSteps expanded)[0]? = some before ∧
          (triggerSteps expanded)[1]? = some step ∧ before.trigger = step.trigger ∧
          step.place = before.place + 1 := by
  have checked : (compile Registry.builtin chainScript).toOption.map
      (fun document => document.triggers.map fun entry => (entry.requirementId, entry.actionId)) =
        some [("city-windmill", "tech-club"), ("", "arpalhc"), ("tech-club", "city-bank")] := by
    decide +kernel
  obtain ⟨document, compiled, ids⟩ := exists_ok_of_toOption_map checked
  obtain ⟨program, expanded, parsed, expandedRan, sameLength, _, chained⟩ :=
    triggers_of_compile compiled
  refine ⟨document, compiled, ids, program, expanded, parsed, expandedRan, sameLength, ?_⟩
  have second := congrArg (fun ids => ids[1]?) ids
  simp only [List.getElem?_map, List.getElem?_cons_succ, List.getElem?_cons_zero] at second
  obtain ⟨entry, isEntry, entryIds⟩ := Option.map_eq_some_iff.mp second
  obtain ⟨i, before, step, isNext, isBefore, isStep, sameTrigger, isPlace⟩ :=
    chained 1 entry isEntry (Prod.mk.inj entryIds).1
  obtain rfl : i = 0 := by
    omega
  exact ⟨before, step, isBefore, isStep, sameTrigger, isPlace⟩

end AutomationScript
