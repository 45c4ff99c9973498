import AutomationScript.Lowering.Revision

/-!
# Outcomes of lowering steps

`Yields post` says that a step stops for no defect and that its result, if there is one, satisfies
`post`.  For results that are known to exist, `bind_eq_ok_iff` takes sequences apart.
-/

namespace AutomationScript

open List

variable {ε α β : Type} {first : Except ε α} {next : α → Except ε β}

theorem bind_eq_ok_iff {result : β} :
    (first >>= next) = .ok result ↔ ∃ value, first = .ok value ∧ next value = .ok result := by
  cases first with
  | error failure =>
    constructor
    · intro impossible
      cases impossible
    · rintro ⟨value, impossible, _⟩
      cases impossible
  | ok value =>
    constructor
    · intro continued
      exact ⟨value, rfl, continued⟩
    · rintro ⟨_, same, continued⟩
      cases same
      exact continued

theorem bind_eq_error_iff {failure : ε} :
    (first >>= next) = .error failure ↔
      first = .error failure ∨ ∃ value, first = .ok value ∧ next value = .error failure := by
  cases first with
  | error earlier =>
    constructor
    · intro failed
      cases failed
      exact .inl rfl
    · rintro (failed | ⟨value, impossible, _⟩)
      · cases failed
        rfl
      · cases impossible
  | ok value =>
    constructor
    · intro continued
      exact .inr ⟨value, rfl, continued⟩
    · rintro (impossible | ⟨_, same, continued⟩)
      · cases impossible
      · cases same
        exact continued

theorem bind_pure_eq_ok_iff {f : α → β} {result : β} :
    (first >>= fun value => pure (f value)) = .ok result ↔
      ∃ value, first = .ok value ∧ f value = result := by
  rw [bind_eq_ok_iff]
  constructor
  · rintro ⟨value, found, given⟩
    exact ⟨value, found, Except.ok.inj given⟩
  · rintro ⟨value, found, rfl⟩
    exact ⟨value, found, rfl⟩

theorem exists_ok_of_toOption_map {f : α → β} {result : β}
    (found : first.toOption.map f = some result) :
    ∃ value, first = .ok value ∧ f value = result := by
  cases first with
  | error failure => cases found
  | ok value => exact ⟨value, rfl, Option.some.inj found⟩

/-- Two steps, neither of which depends on the other. -/
theorem bind_both_eq_ok_iff {γ : Type} {second : Except ε β} {f : α → β → γ} {result : γ} :
    (do return f (← first) (← second)) = .ok result ↔
      ∃ a b, first = .ok a ∧ second = .ok b ∧ result = f a b := by
  rw [bind_eq_ok_iff]
  constructor
  · rintro ⟨a, firstRan, continued⟩
    obtain ⟨b, secondRan, joined⟩ := bind_pure_eq_ok_iff.mp continued
    exact ⟨a, b, firstRan, secondRan, joined.symm⟩
  · rintro ⟨a, b, firstRan, secondRan, rfl⟩
    exact ⟨a, firstRan, bind_pure_eq_ok_iff.mpr ⟨b, secondRan, rfl⟩⟩

theorem bind_both_eq_error {γ : Type} {second : Except ε β} {f : α → β → γ} {failure : ε}
    (failed : (do return f (← first) (← second)) = .error failure) :
    first = .error failure ∨ second = .error failure := by
  rcases bind_eq_error_iff.mp failed with inFirst | ⟨_, _, continued⟩
  · exact .inl inFirst
  · rcases bind_eq_error_iff.mp continued with inSecond | ⟨_, _, impossible⟩
    · exact .inr inSecond
    · cases impossible

/-! ## Steps without defects -/

/-- There is no defect, and a result satisfies `post`. -/
def Yields {α : Type} (post : α → Prop) : Lowering α → Prop
  | .ok value => post value
  | .error (.refused _) => True
  | .error (.defect _) => False

namespace Yields

variable {α β : Type} {post weaker : α → Prop} {after : β → Prop}

theorem of_pure {value : α} (holds : post value) : Yields post (pure value : Lowering α) :=
  holds

theorem of_refuse (error : SemanticError) (loc : Option Location) :
    Yields post (refuse error loc) :=
  True.intro

theorem bind {first : Lowering α} {next : α → Lowering β} (yields : Yields post first)
    (continued : ∀ value, post value → Yields after (next value)) :
    Yields after (first >>= next) := by
  cases first with
  | ok value =>
    exact continued value yields
  | error failure =>
    cases failure with
    | refused diagnostic => exact True.intro
    | defect found => exact yields.elim

variable {step : Lowering α}

theorem mono (yields : Yields post step) (weaken : ∀ value, post value → weaker value) :
    Yields weaker step := by
  cases step with
  | ok value =>
    exact weaken value yields
  | error failure =>
    cases failure with
    | refused diagnostic => exact True.intro
    | defect found => exact yields

theorem result (yields : Yields post step) {value : α} (found : step = .ok value) : post value := by
  rw [found] at yields
  exact yields

theorem and_ofResult (yields : Yields post step)
    (known : ∀ value, step = .ok value → weaker value) :
    Yields (fun value => post value ∧ weaker value) step := by
  cases step with
  | ok value =>
    exact ⟨yields, known value rfl⟩
  | error failure =>
    cases failure with
    | refused diagnostic => exact True.intro
    | defect found => exact yields

theorem noDefect (yields : Yields post step) (defect : Defect) :
    step ≠ .error (.defect defect) := by
  intro found
  rw [found] at yields
  exact yields

theorem bind_eq_defect_iff {first : Lowering α} (yields : Yields post first)
    {next : α → Lowering β} {defect : Defect} :
    (first >>= next) = .error (.defect defect) ↔
      ∃ value, first = .ok value ∧ post value ∧ next value = .error (.defect defect) := by
  cases first with
  | ok value =>
    constructor
    · intro found
      exact ⟨value, rfl, yields, found⟩
    · rintro ⟨_, same, _, found⟩
      cases same
      exact found
  | error failure =>
    constructor
    · intro found
      cases failure with
      | refused diagnostic => cases found
      | defect other => exact yields.elim
    · rintro ⟨_, impossible, _⟩
      cases impossible

end Yields

/-! ## Lists of nodes -/

section Nodes

variable {α : Type} {revise revise' : α → Lowering (Revised α)} {a : α} {nodes rest : List α}
  {revised : Revised (List α)}

theorem reviseList_cons_eq_ok_iff :
    reviseList revise (a :: rest) = .ok revised ↔
      ∃ first others, revise a = .ok first ∧ reviseList revise rest = .ok others ∧
        revised = .map₂ List.cons first others :=
  bind_both_eq_ok_iff

theorem eq_nil_of_reviseList (ran : reviseList revise nodes = .ok revised)
    (empty : revised.value = []) : nodes = [] := by
  cases nodes with
  | nil => rfl
  | cons a rest =>
    obtain ⟨first, others, _, _, rfl⟩ := reviseList_cons_eq_ok_iff.mp ran
    cases empty

theorem eq_cons_of_reviseList {values : List α} {value : α}
    (ran : reviseList revise nodes = .ok revised) (nonempty : revised.value = value :: values) :
    ∃ a rest first others, nodes = a :: rest ∧ revise a = .ok first ∧ first.value = value ∧
      reviseList revise rest = .ok others ∧ others.value = values := by
  cases nodes with
  | nil =>
    cases ran
    cases nonempty
  | cons a rest =>
    obtain ⟨first, others, firstRan, restRan, rfl⟩ := reviseList_cons_eq_ok_iff.mp ran
    cases nonempty
    exact ⟨a, rest, first, others, rfl, firstRan, rfl, restRan, rfl⟩

theorem exists_of_mem_of_reviseList (ran : reviseList revise nodes = .ok revised)
    (member : a ∈ nodes) : ∃ found, revise a = .ok found ∧ found.value ∈ revised.value := by
  induction nodes generalizing revised with
  | nil => cases member
  | cons head rest ih =>
    obtain ⟨first, others, firstRan, othersRan, rfl⟩ := reviseList_cons_eq_ok_iff.mp ran
    rcases mem_cons.mp member with rfl | further
    · exact ⟨first, firstRan, mem_cons_self⟩
    · obtain ⟨found, foundRan, inRest⟩ := ih othersRan further
      exact ⟨found, foundRan, mem_cons_of_mem _ inRest⟩

theorem reviseList_congr (same : ∀ node ∈ nodes, revise node = revise' node) :
    reviseList revise nodes = reviseList revise' nodes := by
  induction nodes with
  | nil => rfl
  | cons node rest ih =>
    obtain ⟨first, others⟩ := forall_mem_cons.mp same
    rw [reviseList, reviseList, first, ih others]

theorem reviseList_of_each (ran : reviseList revise nodes = .ok revised)
    (each : ∀ node ∈ nodes, ∀ {found}, revise node = .ok found → found.value ∈ revised.value →
      revise' node = .ok found) : reviseList revise' nodes = .ok revised := by
  have same : reviseList revise nodes = reviseList revise' nodes := by
    refine reviseList_congr fun node member => ?_
    obtain ⟨found, foundRan, foundMember⟩ := exists_of_mem_of_reviseList ran member
    rw [foundRan, each node member foundRan foundMember]
  exact same.symm.trans ran

theorem exists_error_of_reviseList {failure : Failure}
    (failed : reviseList revise nodes = .error failure) :
    ∃ node ∈ nodes, revise node = .error failure := by
  induction nodes with
  | nil => cases failed
  | cons node rest ih =>
    rcases bind_both_eq_error failed with inFirst | inRest
    · exact ⟨node, mem_cons_self, inFirst⟩
    · obtain ⟨found, member, foundFailed⟩ := ih inRest
      exact ⟨found, mem_cons_of_mem _ member, foundFailed⟩

theorem reviseList_eq_kept (kept : ∀ node ∈ nodes, revise node = .ok (.kept node)) :
    reviseList revise nodes = .ok (.kept nodes) := by
  induction nodes with
  | nil => rfl
  | cons node rest ih =>
    obtain ⟨first, others⟩ := forall_mem_cons.mp kept
    rw [reviseList, first, ih others]
    rfl

theorem kept_of_reviseList
    (kept : ∀ node ∈ nodes, ∀ {revised}, revise node = .ok revised → revised = .kept node)
    (ran : reviseList revise nodes = .ok revised) : revised = .kept nodes := by
  refine Except.ok.inj (ran.symm.trans (reviseList_eq_kept fun node member => ?_))
  obtain ⟨found, foundRan, _⟩ := exists_of_mem_of_reviseList ran member
  rw [foundRan, kept node member foundRan]

end Nodes

/-! ## Programs, statement by statement -/

theorem lowerEach_append (lower : Stmt → Lowering (List Stmt)) (front back : List Stmt) :
    lowerEach lower (front ++ back) = (do
      let first ← lowerEach lower front
      let others ← lowerEach lower back
      return first ++ others) := by
  induction front with
  | nil =>
    show lowerEach lower back = lowerEach lower back >>= fun others => pure ([] ++ others)
    cases lowerEach lower back with
    | error failure => rfl
    | ok others => rfl
  | cons s rest ih =>
    rw [cons_append, lowerEach, ih, lowerEach]
    cases lower s with
    | error failure => rfl
    | ok first =>
      cases lowerEach lower rest with
      | error failure => rfl
      | ok others =>
        cases lowerEach lower back with
        | error failure => rfl
        | ok last =>
          show Except.ok (first ++ (others ++ last)) = Except.ok (first ++ others ++ last)
          rw [append_assoc]

section Programs

variable {lower : Stmt → Lowering (List Stmt)} {s : Stmt} {program rest front back lowered : List Stmt}

theorem lowerEach_cons_eq_ok_iff :
    lowerEach lower (s :: rest) = .ok lowered ↔
      ∃ first others, lower s = .ok first ∧ lowerEach lower rest = .ok others ∧
        lowered = first ++ others :=
  bind_both_eq_ok_iff

theorem lowerEach_append_eq_ok_iff :
    lowerEach lower (front ++ back) = .ok lowered ↔
      ∃ first others, lowerEach lower front = .ok first ∧ lowerEach lower back = .ok others ∧
        lowered = first ++ others := by
  rw [lowerEach_append]
  exact bind_both_eq_ok_iff

theorem exists_ok_of_lowerEach (ran : lowerEach lower program = .ok lowered)
    (member : s ∈ program) : ∃ part, lower s = .ok part := by
  obtain ⟨front, back, rfl⟩ := append_of_mem member
  obtain ⟨_, _, _, restRan, _⟩ := lowerEach_append_eq_ok_iff.mp ran
  obtain ⟨part, _, partRan, _, _⟩ := lowerEach_cons_eq_ok_iff.mp restRan
  exact ⟨part, partRan⟩

theorem exists_error_of_lowerEach {failure : Failure}
    (failed : lowerEach lower program = .error failure) :
    ∃ s ∈ program, lower s = .error failure := by
  induction program with
  | nil => cases failed
  | cons s rest ih =>
    rcases bind_both_eq_error failed with inFirst | inRest
    · exact ⟨s, mem_cons_self, inFirst⟩
    · obtain ⟨t, member, inStatement⟩ := ih inRest
      exact ⟨t, mem_cons_of_mem _ member, inStatement⟩

theorem lowerEach_congr {lower' : Stmt → Lowering (List Stmt)}
    (same : ∀ s ∈ program, lower s = lower' s) :
    lowerEach lower program = lowerEach lower' program := by
  induction program with
  | nil => rfl
  | cons s rest ih =>
    obtain ⟨first, others⟩ := forall_mem_cons.mp same
    rw [lowerEach, lowerEach, first, ih others]

theorem Yields.lowerEach {pre post : Stmt → Prop}
    (step : ∀ s, pre s → Yields (fun part => ∀ t ∈ part, post t) (lower s))
    (holds : ∀ s ∈ program, pre s) :
    Yields (fun lowered => ∀ t ∈ lowered, post t) (lowerEach lower program) := by
  induction program with
  | nil => exact of_pure (forall_mem_nil _)
  | cons s rest ih =>
    obtain ⟨here, others⟩ := forall_mem_cons.mp holds
    exact (step s here).bind fun part partHolds => (ih others).bind fun lowered loweredHolds =>
      of_pure (forall_mem_append.mpr ⟨partHolds, loweredHolds⟩)

end Programs

end AutomationScript
