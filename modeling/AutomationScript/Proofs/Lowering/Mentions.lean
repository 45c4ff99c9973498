import AutomationScript.Lowering.Aliases
import AutomationScript.Lowering.Placeholders
import AutomationScript.Proofs.Program.Unlocated
import AutomationScript.Proofs.Lowering.Spread

/-!
# Names that a program mentions

A name that stands in a value or condition, outside of keys, stays there until aliases are resolved,
and then the registry has to know it.  Only a list without elements would take it away, and such a
list is refused.
-/

namespace AutomationScript

open List

variable {name : String} {registry : Registry}
variable {e : Expr} {revised : Revised Expr} {s : Stmt} {program lowered : List Stmt}

/-- The name stands in the expression, outside of keys. -/
def Expr.Mentions (name : String) (e : Expr) : Prop :=
  e.hasNode false (fun node => node.name? == some name) = true

namespace Expr

@[simp] theorem mentions_ident (word : Ident) (loc : Option Location) :
    (Expr.ident word loc).Mentions name ↔ word.name = name := by
  simp [Mentions, hasNode, name?]

@[simp] theorem not_mentions_subscript (base : Ident) (key : Expr) (loc : Option Location) :
    ¬(Expr.subscript base key loc).Mentions name := by
  simp [Mentions, hasNode, name?]

theorem spreads_mentions : Spreads (Mentions name) := by
  intro build values isBranch
  simp only [Mentions, isBranch.hasNode, Bool.or_eq_true, any_eq_true]
  cases isBranch <;> simp [name?]

theorem Mentions.isAtom_of_isSingle (mentions : e.Mentions name) (single : e.isSingle = true) :
    e.isAtom = true := by
  cases e with
  | subscript base key loc => exact absurd mentions (not_mentions_subscript base key loc)
  | list values fold loc => cases single
  | compound operator args loc => cases single
  | _ => rfl

theorem Mentions.eq_ident_of_isAtom (mentions : e.Mentions name) (isAtom : e.isAtom = true) :
    ∃ word loc, e = .ident word loc ∧ word.name = name := by
  cases e with
  | ident word loc =>
    exact ⟨word, loc, rfl, (mentions_ident word loc).mp mentions⟩
  | subscript | list | compound => cases isAtom
  | _ => cases mentions

/-! ## Revisions -/

section Revisions

variable {rule : Expr → Option (Lowering (Revised Expr))}

/-- The rule leaves the name alone somewhere, and then `e` mentions it; or it answers for it. -/
def Traced (rule : Expr → Option (Lowering (Revised Expr))) (name : String) (e : Expr) : Prop :=
  (e.Mentions name ∧ ∃ word loc, word.name = name ∧ rule (.ident word loc) = none) ∨
    ∃ word loc found, word.name = name ∧ rule (.ident word loc) = some (.ok found)

theorem Traced.mono {whole : Expr} (traced : Traced rule name e)
    (widen : e.Mentions name → whole.Mentions name) : Traced rule name whole := by
  rcases traced with ⟨mentions, unanswered⟩ | answered
  · exact .inl ⟨widen mentions, unanswered⟩
  · exact .inr answered

theorem Mentions.traced_atom (isAtom : e.isAtom = true) (mentions : e.Mentions name)
    (ran : e.revise rule = .ok revised) : Traced rule name revised.value := by
  obtain ⟨word, loc, rfl, named⟩ := mentions.eq_ident_of_isAtom isAtom
  rw [revise_atom rule isAtom] at ran
  cases answer : rule (.ident word loc) with
  | some found =>
    rw [answer] at ran
    exact .inr ⟨word, loc, revised, named, answer.trans (congrArg some ran)⟩
  | none =>
    rw [answer] at ran
    cases ran
    exact .inl ⟨mentions, word, loc, named, answer⟩

theorem surfaces_traced : Surfaces (Traced rule name) :=
  fun isBranch member traced =>
    traced.mono fun mentioned => spreads_mentions.surfaces isBranch member mentioned

/-- A revision keeps track of every name that is mentioned. -/
theorem Mentions.traced (opens : OpensUp rule) (e : Expr) (mentions : e.Mentions name)
    (ran : e.revise rule = .ok revised) : Traced rule name revised.value := by
  refine spreads_mentions.revise surfaces_traced opens (fun single mentioned nodeRan => ?_) e
    mentions ran
  exact mentioned.traced_atom (mentioned.isAtom_of_isSingle single) nodeRan

end Revisions

end Expr

/-! ## Wildcards -/

namespace Wildcard

theorem mentions_expand (registry : Registry) (e : Expr) (mentions : e.Mentions name)
    (ran : expand registry e = .ok revised) : revised.value.Mentions name := by
  induction e using Expr.induction generalizing revised with
  | atom e isAtom =>
    obtain ⟨word, loc, rfl, _⟩ := mentions.eq_ident_of_isAtom isAtom
    cases ran
    exact mentions
  | subscript base key loc _ => exact absurd mentions (Expr.not_mentions_subscript base key loc)
  | branch isBranch values ih =>
    rw [expand_branch isBranch] at ran
    obtain ⟨newValues, valuesRan, rfl⟩ := bind_pure_eq_ok_iff.mp ran
    obtain ⟨value, member, mentioned⟩ := (Expr.spreads_mentions isBranch).mp mentions
    obtain ⟨found, foundRan, inside⟩ := exists_of_mem_of_reviseList valuesRan member
    exact (Expr.spreads_mentions isBranch).mpr ⟨_, inside, ih value member mentioned foundRan⟩

end Wildcard

/-! ## Lists -/

namespace Lists

/-- A name in an expression is there after its lists are resolved, unless nothing is. -/
theorem mentions_resolve (registry : Registry) (e : Expr) (mentions : e.Mentions name)
    (ran : resolve registry e = .ok revised) :
    revised.value.Mentions name ∨ revised.value.isEmptyList = true := by
  induction e using Expr.induction generalizing revised with
  | atom e isAtom =>
    rw [resolve_atom isAtom] at ran
    cases ran
    exact .inl mentions
  | subscript base key loc _ => exact absurd mentions (Expr.not_mentions_subscript base key loc)
  | branch isBranch values ih =>
    obtain ⟨value, member, mentioned⟩ := (Expr.spreads_mentions isBranch).mp mentions
    cases isBranch with
    | list fold loc =>
      obtain ⟨newValues, valuesRan, noList, rfl⟩ := resolve_list_eq_ok_iff.mp ran
      obtain ⟨found, foundRan, inside⟩ := exists_of_mem_of_reviseList valuesRan member
      exact .inl (surfaces_elements Expr.spreads_mentions.surfaces noList
        ⟨_, inside, ih value member mentioned foundRan⟩ fold loc)
    | compound operator loc =>
      rw [resolve, resolveAll_eq_reviseList] at ran
      obtain ⟨newArgs, argsRan, continued⟩ := bind_eq_ok_iff.mp ran
      obtain ⟨found, foundRan, inside⟩ := exists_of_mem_of_reviseList argsRan member
      exact spreads_applyOperator Expr.spreads_mentions continued
        ⟨_, inside, ih value member mentioned foundRan⟩

theorem mentions_resolveRoot (mentions : e.Mentions name)
    (ran : resolveRoot registry e = .ok revised) : revised.value.Mentions name := by
  obtain ⟨resolvedRan, single⟩ := resolveRoot_eq_ok_iff.mp ran
  rcases mentions_resolve registry e mentions resolvedRan with mentioned | empty
  · exact mentioned
  · rw [Expr.isList_of_isEmptyList empty] at single
    cases single

end Lists

/-! ## Placeholders and aliases -/

theorem Placeholder.mentions_fill {key : Option Ident} (mentions : e.Mentions name)
    (ran : fill key e = .ok revised) : revised.value.Mentions name := by
  unfold fill at ran
  have traced := Expr.Mentions.traced (fun isBranch _ => by cases isBranch <;> rfl) e mentions ran
  rcases traced with ⟨mentioned, _⟩ | ⟨word, loc, found, _, answered⟩
  · exact mentioned
  · cases answered

/-- A name that stands where aliases are resolved is one of the registry. -/
theorem Alias.isSome_other?_of_mentions (mentions : e.Mentions name)
    (ran : resolve registry e = .ok revised) : (registry.other? name).isSome := by
  unfold resolve at ran
  have traced := Expr.Mentions.traced (fun isBranch _ => by cases isBranch <;> rfl) e mentions ran
  rcases traced with ⟨_, word, loc, named, answered⟩ | ⟨word, loc, found, named, answered⟩
  all_goals
    rw [← named]
    dsimp only at answered
    cases known : registry.other? word.name with
    | some other => rfl
    | none =>
      rw [known] at answered
      cases answered

/-! ## Programs -/

/-- Some value or condition of the statement satisfies `p`. -/
def Stmt.HasPart (p : Expr → Prop) : Stmt → Prop
  | .assign _ value condition _ => p value ∨ ∃ e ∈ condition, p e
  | .openBlock condition _ => p condition
  | _ => False

theorem Stmt.hasPart_iff {p : Expr → Prop} : s.HasPart p ↔ ∃ e, s.HasPart (· = e) ∧ p e := by
  cases s with
  | assign target value condition tag =>
    constructor
    · rintro (holds | ⟨e, isCondition, holds⟩)
      · exact ⟨value, .inl rfl, holds⟩
      · exact ⟨e, .inr ⟨e, isCondition, rfl⟩, holds⟩
    · rintro ⟨e, rfl | ⟨_, isCondition, rfl⟩, holds⟩
      · exact .inl holds
      · exact .inr ⟨_, isCondition, holds⟩
  | openBlock condition tag => simp [HasPart]
  | _ => simp [HasPart]

theorem Stmt.HasPart.const {p : Prop} (hasPart : s.HasPart fun _ => p) : p := by
  obtain ⟨_, _, holds⟩ := hasPart_iff.mp hasPart
  exact holds

variable {before after : Expr → Prop}

theorem Stmt.HasPart.ofParts {revise : Expr → Lowering (Revised Expr)}
    (parts : ∀ {e revised}, before e → revise e = .ok revised → after revised.value)
    {target value : Expr} {condition : Option Expr} {tag : Tag}
    (hasPart : (Stmt.assign target value condition tag).HasPart before) {newValue : Revised Expr}
    (valueRan : revise value = .ok newValue) {newCondition : Revised (Option Expr)}
    (conditionRan : reviseOption revise condition = .ok newCondition) (newTarget : Revised Expr) :
    (Stmt.ofParts newTarget newValue newCondition tag).HasPart after := by
  rcases hasPart with inValue | ⟨e, rfl, inCondition⟩
  · exact .inl (parts inValue valueRan)
  · obtain ⟨revised, ran, rfl⟩ := bind_pure_eq_ok_iff.mp conditionRan
    exact .inr ⟨revised.value, rfl, parts inCondition ran⟩

variable {target value : Expr → Lowering (Revised Expr)}

theorem Stmt.HasPart.revise
    (parts : ∀ {e revised}, before e → value e = .ok revised → after revised.value) {s' : Stmt}
    (hasPart : s.HasPart before) (ran : s.revise target value = .ok s') : s'.HasPart after := by
  cases s with
  | assign left right condition tag =>
    obtain ⟨newLeft, _, continued⟩ := bind_eq_ok_iff.mp ran
    obtain ⟨newRight, rightRan, continued⟩ := bind_eq_ok_iff.mp continued
    obtain ⟨newCondition, conditionRan, rfl⟩ := bind_pure_eq_ok_iff.mp continued
    exact hasPart.ofParts parts rightRan conditionRan newLeft
  | openBlock condition tag =>
    obtain ⟨newCondition, conditionRan, rfl⟩ := bind_pure_eq_ok_iff.mp ran
    exact parts hasPart conditionRan
  | _ => exact hasPart.elim

/-- The name stands in a value or condition of the program, outside of keys. -/
def Mentioned (name : String) (program : List Stmt) : Prop :=
  ∃ s ∈ program, s.HasPart (Expr.Mentions name)

theorem exists_of_lowerEach {before after : Stmt → Prop} {lower : Stmt → Lowering (List Stmt)}
    (step : ∀ {s part}, before s → lower s = .ok part → ∃ t ∈ part, after t)
    (found : ∃ s ∈ program, before s) (ran : lowerEach lower program = .ok lowered) :
    ∃ t ∈ lowered, after t := by
  obtain ⟨s, member, holds⟩ := found
  obtain ⟨front, back, rfl⟩ := append_of_mem member
  obtain ⟨first, rest, _, restRan, rfl⟩ := lowerEach_append_eq_ok_iff.mp ran
  obtain ⟨part, others, partRan, _, rfl⟩ := lowerEach_cons_eq_ok_iff.mp restRan
  obtain ⟨t, inPart, after⟩ := step holds partRan
  exact ⟨t, mem_append_right _ (mem_append_left _ inPart), after⟩

theorem forall_of_lowerEach {before after : Stmt → Prop} {lower : Stmt → Lowering (List Stmt)}
    (step : ∀ {s part}, before s → lower s = .ok part → ∀ t ∈ part, after t)
    (holds : ∀ s ∈ program, before s) (ran : lowerEach lower program = .ok lowered) :
    ∀ t ∈ lowered, after t := by
  induction program generalizing lowered with
  | nil =>
    cases ran
    exact forall_mem_nil _
  | cons s rest ih =>
    obtain ⟨first, others, firstRan, othersRan, rfl⟩ := lowerEach_cons_eq_ok_iff.mp ran
    obtain ⟨firstHolds, restHolds⟩ := forall_mem_cons.mp holds
    exact forall_mem_append.mpr ⟨step firstHolds firstRan, ih restHolds othersRan⟩

theorem exists_of_reviseEach
    (parts : ∀ {e revised}, before e → value e = .ok revised → after revised.value)
    (found : ∃ s ∈ program, s.HasPart before)
    (ran : lowerEach (fun s => do return [← s.revise target value]) program = .ok lowered) :
    ∃ t ∈ lowered, t.HasPart after := by
  refine exists_of_lowerEach (fun hasPart stepRan => ?_) found ran
  obtain ⟨s', revised, rfl⟩ := bind_pure_eq_ok_iff.mp stepRan
  exact ⟨s', mem_singleton_self s', hasPart.revise parts revised⟩

theorem Wildcard.mentioned_lower (mentioned : Mentioned name program)
    (ran : lower registry program = .ok lowered) : Mentioned name lowered :=
  exists_of_reviseEach (fun mentions expanded => mentions_expand registry _ mentions expanded)
    mentioned ran

theorem Lists.unroll_ne_nil {target : Expr} (solid : target.isVoid = false)
    {targets : List (Revised Expr)} (ran : unroll target = .ok targets) : targets ≠ [] := by
  unfold unroll at ran
  split at ran
  · next base keys fold loc targetLoc =>
    cases keys with
    | nil => cases solid
    | cons key rest =>
      rw [unrollKeys] at ran
      by_cases listed : key.isList = true
      · rw [if_pos listed] at ran
        cases ran
      · rw [if_neg listed] at ran
        obtain ⟨others, _, rfl⟩ := bind_pure_eq_ok_iff.mp ran
        exact cons_ne_nil _ _
  · cases ran
    exact cons_ne_nil _ _

theorem Lists.hasPart_lowerStmt {part : List Stmt} (solid : s.isVoid = false)
    (hasPart : s.HasPart (Expr.Mentions name)) (ran : lowerStmt registry s = .ok part) :
    ∃ t ∈ part, t.HasPart (Expr.Mentions name) := by
  cases s with
  | assign target value condition tag =>
    obtain ⟨newValue, valueRan, continued⟩ := bind_eq_ok_iff.mp ran
    obtain ⟨newCondition, conditionRan, continued⟩ := bind_eq_ok_iff.mp continued
    obtain ⟨targets, unrolled, rfl⟩ := bind_pure_eq_ok_iff.mp continued
    have nonempty := unroll_ne_nil solid unrolled
    obtain ⟨first, rest, rfl⟩ := exists_cons_of_ne_nil nonempty
    refine ⟨_, mem_map_of_mem mem_cons_self, ?_⟩
    exact hasPart.ofParts mentions_resolveRoot valueRan conditionRan first
  | openBlock condition tag =>
    obtain ⟨newCondition, conditionRan, rfl⟩ := bind_pure_eq_ok_iff.mp ran
    exact ⟨_, mem_singleton_self _, mentions_resolveRoot hasPart conditionRan⟩
  | _ => exact hasPart.elim

theorem Lists.mentioned_lower (solid : ∀ s ∈ program, s.isVoid = false)
    (mentioned : Mentioned name program) (ran : lower registry program = .ok lowered) :
    Mentioned name lowered := by
  obtain ⟨s, member, hasPart⟩ := mentioned
  have found : ∃ s ∈ program, s.isVoid = false ∧ s.HasPart (Expr.Mentions name) :=
    ⟨s, member, solid s member, hasPart⟩
  exact exists_of_lowerEach (fun both stepRan => hasPart_lowerStmt both.1 both.2 stepRan) found ran

theorem Placeholder.hasPart_lowerStmt {part : List Stmt}
    (hasPart : s.HasPart (Expr.Mentions name)) (ran : lowerStmt s = .ok part) :
    ∃ t ∈ part, t.HasPart (Expr.Mentions name) := by
  cases s with
  | assign target value condition tag =>
    obtain ⟨_, _, continued⟩ := bind_eq_ok_iff.mp ran
    obtain ⟨newValue, valueRan, continued⟩ := bind_eq_ok_iff.mp continued
    obtain ⟨newCondition, conditionRan, rfl⟩ := bind_pure_eq_ok_iff.mp continued
    refine ⟨_, mem_singleton_self _, ?_⟩
    exact hasPart.ofParts mentions_fill valueRan conditionRan (.kept target)
  | openBlock condition tag =>
    obtain ⟨_, _, same⟩ := bind_eq_ok_iff.mp ran
    cases same
    exact ⟨_, mem_singleton_self _, hasPart⟩
  | _ => exact hasPart.elim

theorem Placeholder.mentioned_lower (mentioned : Mentioned name program)
    (ran : lower program = .ok lowered) : Mentioned name lowered :=
  exists_of_lowerEach hasPart_lowerStmt mentioned ran

theorem Alias.isSome_other?_of_mentioned (mentioned : Mentioned name program)
    (ran : lower registry program = .ok lowered) : (registry.other? name).isSome := by
  have found : ∃ t ∈ lowered, t.HasPart fun _ => (registry.other? name).isSome :=
    exists_of_reviseEach isSome_other?_of_mentions mentioned ran
  obtain ⟨_, _, known⟩ := found
  exact known.const

/-! ## Targets -/

/-- Every family of the registry has a suffix. -/
def Registry.NoEmptyFamily (registry : Registry) : Prop :=
  ∀ name family, registry.family? name = some family → family.suffixes ≠ []

theorem Stmt.not_isVoid_revise
    (targets : ∀ {e revised}, e.isVoid = false → target e = .ok revised →
      revised.value.isVoid = false)
    {s' : Stmt} (solid : s.isVoid = false) (ran : s.revise target value = .ok s') :
    s'.isVoid = false := by
  cases s with
  | assign left right condition tag =>
    obtain ⟨newLeft, leftRan, continued⟩ := bind_eq_ok_iff.mp ran
    obtain ⟨newRight, _, continued⟩ := bind_eq_ok_iff.mp continued
    obtain ⟨newCondition, _, rfl⟩ := bind_pure_eq_ok_iff.mp continued
    exact targets solid leftRan
  | openBlock condition tag =>
    obtain ⟨newCondition, _, rfl⟩ := bind_pure_eq_ok_iff.mp ran
    rfl
  | _ =>
    cases ran
    exact solid

theorem Expr.isVoid_subscript_eq (base : Ident) (key : Expr) (loc : Option Location) :
    (Expr.subscript base key loc).isVoid = key.isEmptyList := by
  cases key with
  | list values fold keyLoc => cases values <;> rfl
  | _ => rfl

namespace Wildcard

variable {base : Ident} {values : List Expr}

theorem suffixes_ne_nil (noEmpty : registry.NoEmptyFamily) {loc : Option Location}
    (ran : suffixes registry base loc = .ok values) : values ≠ [] := by
  unfold suffixes at ran
  cases found : registry.family? base.name with
  | none =>
    rw [found] at ran
    cases ran
  | some family =>
    rw [found] at ran
    cases ran
    simpa using noEmpty base.name family found

theorem expandAll_ne_nil (nonempty : values ≠ []) {revised : Revised (List Expr)}
    (ran : expandAll registry values = .ok revised) : revised.value ≠ [] := by
  cases values with
  | nil => exact absurd rfl nonempty
  | cons e rest =>
    rw [expandAll] at ran
    obtain ⟨first, _, continued⟩ := bind_eq_ok_iff.mp ran
    obtain ⟨others, _, rfl⟩ := bind_pure_eq_ok_iff.mp continued
    exact cons_ne_nil _ _

theorem expandElements_ne_nil (noEmpty : registry.NoEmptyFamily) (nonempty : values ≠ [])
    {revised : Revised (List Expr)} (ran : expandElements registry base values = .ok revised) :
    revised.value ≠ [] := by
  unfold expandElements at ran
  split at ran
  · exact absurd rfl nonempty
  · obtain ⟨stars, starsRan, continued⟩ := bind_eq_ok_iff.mp ran
    obtain ⟨others, _, rfl⟩ := bind_pure_eq_ok_iff.mp continued
    exact append_ne_nil_of_left_ne_nil (suffixes_ne_nil noEmpty starsRan) _
  · obtain ⟨first, _, continued⟩ := bind_eq_ok_iff.mp ran
    obtain ⟨others, _, rfl⟩ := bind_pure_eq_ok_iff.mp continued
    exact cons_ne_nil _ _

theorem not_isEmptyList_expandKey (noEmpty : registry.NoEmptyFamily) {key : Expr}
    (solid : key.isEmptyList = false) (ran : expandKey registry base key = .ok revised) :
    revised.value.isEmptyList = false := by
  cases key with
  | wildcard loc =>
    rw [expandKey] at ran
    obtain ⟨values, valuesRan, rfl⟩ := bind_pure_eq_ok_iff.mp ran
    exact Expr.not_isEmptyList_of_ne_nil (suffixes_ne_nil noEmpty valuesRan) none loc
  | list values fold loc =>
    rw [expandKey] at ran
    obtain ⟨newValues, valuesRan, rfl⟩ := bind_pure_eq_ok_iff.mp ran
    have nonempty : values ≠ [] := by
      rintro rfl
      cases solid
    have elements := expandElements_ne_nil noEmpty nonempty valuesRan
    exact Expr.not_isEmptyList_of_ne_nil elements fold loc
  | subscript inner key loc =>
    rw [expandKey] at ran
    obtain ⟨newKey, _, rfl⟩ := bind_pure_eq_ok_iff.mp ran
    rfl
  | compound operator args loc =>
    rw [expandKey] at ran
    obtain ⟨newArgs, _, rfl⟩ := bind_pure_eq_ok_iff.mp ran
    rfl
  | _ =>
    cases ran
    rfl

theorem not_isVoid_expand (noEmpty : registry.NoEmptyFamily) (solid : e.isVoid = false)
    (ran : expand registry e = .ok revised) : revised.value.isVoid = false := by
  cases e with
  | subscript base key loc =>
    rw [expand] at ran
    obtain ⟨newKey, keyRan, rfl⟩ := bind_pure_eq_ok_iff.mp ran
    rw [Expr.isVoid_subscript_eq] at solid
    exact (Expr.isVoid_subscript_eq _ _ _).trans (not_isEmptyList_expandKey noEmpty solid keyRan)
  | wildcard loc => cases ran
  | list values fold loc =>
    rw [expand] at ran
    obtain ⟨newValues, valuesRan, rfl⟩ := bind_pure_eq_ok_iff.mp ran
    have nonempty : values ≠ [] := by
      rintro rfl
      cases solid
    obtain ⟨first, rest, isCons⟩ :=
      exists_cons_of_ne_nil (expandAll_ne_nil nonempty valuesRan)
    rw [Revised.map, isCons]
    rfl
  | compound operator args loc =>
    rw [expand] at ran
    obtain ⟨newArgs, _, rfl⟩ := bind_pure_eq_ok_iff.mp ran
    rfl
  | _ =>
    cases ran
    rfl

theorem not_isVoid_lower (noEmpty : registry.NoEmptyFamily)
    (solid : ∀ s ∈ program, s.isVoid = false) (ran : lower registry program = .ok lowered) :
    ∀ s ∈ lowered, s.isVoid = false := by
  refine forall_of_lowerEach (fun sSolid stepRan => ?_) solid ran
  obtain ⟨s', revised, rfl⟩ := bind_pure_eq_ok_iff.mp stepRan
  exact forall_mem_singleton.mpr
    (Stmt.not_isVoid_revise (not_isVoid_expand noEmpty) sSolid revised)

end Wildcard

end AutomationScript
