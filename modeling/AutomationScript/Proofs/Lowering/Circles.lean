import Mathlib.Logic.Relation
import AutomationScript.Proofs.Lowering.Expansion

/-!
# Circular definitions

A definition refers to the names that its body mentions or uses.  A program expands only if no name
leads back to itself, and a refusal for a circular use has found a circle (`lower_complete`).
-/

namespace AutomationScript

open Relation (ReflTransGen TransGen)

variable {s : Stmt} {e : Expr} {failure : Failure} {statements lowered : List Stmt}

/-! ## References -/

/-- The statement uses the name, or mentions it in a value or condition. -/
def Stmt.RefersTo (name : String) : Stmt → Prop
  | .use word _ => word.name = name
  | s => s.HasPart (Expr.Mentions name)

namespace Definition

def RefersTo (name : String) : Definition → Prop
  | .expr body => body.Mentions name
  | .block body => ∃ s ∈ body, s.RefersTo name

/-- A definition of `name` in the program refers to `other`. -/
def Refers (program : List Stmt) (name other : String) : Prop :=
  ∃ definition, Defines program name definition ∧ definition.RefersTo other

/-- From `start` there is a way to a name that refers back to itself, directly or not. -/
def ReachesCircle (refers : String → String → Prop) (start : String) : Prop :=
  ∃ name, ReflTransGen refers start name ∧ TransGen refers name name

/-- A statement of the program, other than a definition, leads to a circle of definitions. -/
def HasCircle (program : List Stmt) : Prop :=
  ∃ s ∈ program, s.definition? = none ∧ ∃ name, s.RefersTo name ∧
    ReachesCircle (Refers program) name

end Definition

/-! ## Parts of statements -/

section Parts

variable {value : Expr → Lowering (Revised Expr)}

theorem Stmt.PartsSatisfy.of_hasPart {target value p : Expr → Prop}
    (satisfied : s.PartsSatisfy target value) (hasPart : s.HasPart p) : ∃ e, value e ∧ p e := by
  cases s with
  | assign left right condition tag =>
    rcases hasPart with holds | ⟨e, isCondition, holds⟩
    · exact ⟨right, satisfied.2.1, holds⟩
    · exact ⟨e, satisfied.2.2 e isCondition, holds⟩
  | openBlock condition tag => exact ⟨condition, satisfied, hasPart⟩
  | _ => exact hasPart.elim

theorem Stmt.partsSatisfy_hasPart (s : Stmt) :
    s.PartsSatisfy (fun _ => True) fun e => s.HasPart (· = e) := by
  cases s with
  | assign target right condition tag =>
    exact ⟨True.intro, .inl rfl, fun e isCondition => .inr ⟨e, isCondition, rfl⟩⟩
  | openBlock condition tag => exact rfl
  | _ => exact True.intro

theorem Stmt.RefersTo.exists_part {name : String} (refersTo : s.RefersTo name)
    (plain : s.isDefinitional = false) : ∃ e, s.HasPart (· = e) ∧ e.Mentions name := by
  cases s with
  | use word tag => cases plain
  | _ => exact hasPart_iff.mp refersTo

theorem Stmt.refersTo_of_part {name : String} (isPart : s.HasPart (· = e))
    (mentioned : e.Mentions name) : s.RefersTo name := by
  cases s with
  | use word tag => exact isPart.elim
  | _ => exact hasPart_iff.mpr ⟨e, isPart, mentioned⟩

variable {target : Expr → Lowering (Revised Expr)}

theorem Stmt.plain_of_revise {s' : Stmt} (plain : s.isDefinitional = false)
    (ran : s.revise target value = .ok s') :
    s'.isDefinitional = false ∧
      ∀ condition actions tag, s' = .trigger condition actions tag → s = s' := by
  cases s with
  | assign left right condition tag =>
    obtain ⟨newLeft, _, continued⟩ := bind_eq_ok_iff.mp ran
    obtain ⟨newRight, _, continued⟩ := bind_eq_ok_iff.mp continued
    obtain ⟨newCondition, _, rfl⟩ := bind_pure_eq_ok_iff.mp continued
    exact ⟨rfl, fun _ _ _ impossible => by cases impossible⟩
  | openBlock condition tag =>
    obtain ⟨newCondition, _, rfl⟩ := bind_pure_eq_ok_iff.mp ran
    exact ⟨rfl, fun _ _ _ impossible => by cases impossible⟩
  | closeBlock tag =>
    cases ran
    exact ⟨rfl, fun _ _ _ impossible => by cases impossible⟩
  | trigger condition actions tag =>
    cases ran
    exact ⟨rfl, fun _ _ _ _ => rfl⟩
  | _ => cases plain

theorem Stmt.exists_ok_of_revise {s' : Stmt} (ran : s.revise target value = .ok s')
    (isPart : s.HasPart (· = e)) : ∃ revised, value e = .ok revised := by
  have known : ∀ {part : Expr} {revised : Revised Expr}, part = e → value part = .ok revised →
      ∃ revised, value e = .ok revised := by
    rintro _ revised rfl partRan
    exact ⟨revised, partRan⟩
  exact (isPart.revise known ran).const

theorem Stmt.exists_part_of_revise (failed : s.revise unrevised value = .error failure) :
    ∃ e, s.HasPart (· = e) ∧ value e = .error failure := by
  cases s with
  | assign target right condition tag =>
    rcases bind_eq_error_iff.mp failed with impossible | ⟨_, _, continued⟩
    · cases impossible
    rcases bind_eq_error_iff.mp continued with inRight | ⟨_, _, continued⟩
    · exact ⟨right, .inl rfl, inRight⟩
    rcases bind_eq_error_iff.mp continued with inCondition | ⟨_, _, impossible⟩
    · cases condition with
      | none => cases inCondition
      | some condition =>
        rcases bind_eq_error_iff.mp inCondition with inCondition | ⟨_, _, impossible⟩
        · exact ⟨condition, .inr ⟨condition, rfl, rfl⟩, inCondition⟩
        · cases impossible
    · cases impossible
  | openBlock condition tag =>
    rcases bind_eq_error_iff.mp failed with inCondition | ⟨_, _, impossible⟩
    · exact ⟨condition, rfl, inCondition⟩
    · cases impossible
  | _ => cases failed

end Parts

namespace Definition

variable {word : Ident} {loc : Option Location} {outcome : Lowering (List Stmt)}

/-! ## Ways from name to name -/

section Ways

variable {refers : String → String → Prop} {start next name : String}

theorem ReachesCircle.of_step (step : refers start next) (reaches : ReachesCircle refers next) :
    ReachesCircle refers start := by
  obtain ⟨name, way, circle⟩ := reaches
  exact ⟨name, way.head step, circle⟩

/-- A way to a circle has a first step: into the circle, if it is already on it. -/
theorem ReachesCircle.exists_step (reaches : ReachesCircle refers start) :
    ∃ next, refers start next ∧ ReachesCircle refers next := by
  obtain ⟨name, way, circle⟩ := reaches
  rcases way.cases_head with rfl | ⟨next, step, rest⟩
  · obtain ⟨next, step, back⟩ := TransGen.head'_iff.mp circle
    exact ⟨next, step, start, back, circle⟩
  · exact ⟨next, step, name, rest, circle⟩

/-- From `start` there is a way to `name`, and `name` is active; or there is a way to a circle. -/
def Revisits (refers : String → String → Prop) (active : List String) (start name : String) :
    Prop :=
  (ReflTransGen refers start name ∧ name ∈ active) ∨ ReachesCircle refers start

/-- A way back to the name that has just been entered is a circle. -/
theorem Revisits.of_step {active : List String} (step : refers start next)
    (revisits : Revisits refers (start :: active) next name) :
    Revisits refers active start name := by
  rcases revisits with ⟨way, isActive⟩ | reaches
  · rcases List.mem_cons.mp isActive with rfl | isActive
    · exact .inr ⟨name, .refl, .head' step way⟩
    · exact .inl ⟨way.head step, isActive⟩
  · exact .inr (reaches.of_step step)

end Ways

/-! ## Expressions -/

section Expressions

variable {definitions : Table Definition} {active : List String}
  {expand : String → Expr → Lowering (Revised Expr)}

def Leads (definitions : Table Definition) (name other : String) : Prop :=
  ∃ definition, definitions.get? name = some definition ∧ definition.RefersTo other

theorem ExprExpansion.becomes {outcome : Lowering (Revised Expr)}
    (expansion : ExprExpansion definitions active e outcome) :
    Becomes (NamesNone definitions) outcome := by
  induction expansion with
  | intro expand inner ends ih =>
    rw [← ends, exprRule_eq]
    exact becomes_namesNone fun word body mentioned found inactive =>
      (ih word.name body mentioned found inactive).bind fun _ free => free

/-- An expression that expands mentions no name that leads to a circle. -/
theorem ExprExpansion.not_reachesCircle {outcome : Lowering (Revised Expr)}
    (expansion : ExprExpansion definitions active e outcome) {revised : Revised Expr}
    (found : outcome = .ok revised) {name : String} (mentioned : e.Mentions name) :
    ¬ReachesCircle (Leads definitions) name := by
  induction expansion generalizing revised name with
  | intro expand inner ends ih =>
    intro reaches
    obtain ⟨next, ⟨definition, defined, refersTo⟩, nextReaches⟩ := reaches.exists_step
    rw [exprRule_eq] at ends
    rcases Expr.Mentions.traced opensUp_nameRule _ mentioned (ends.trans found) with
      ⟨_, word, loc, rfl, unanswered⟩ | ⟨word, loc, answer, rfl, answered⟩
    · cases named_of_nameRule unanswered with
      | undefined absent => cases absent.symm.trans defined
    · generalize given : some (Except.ok answer) = asked at answered
      cases named_of_nameRule answered with
      | entered isExpr inactive =>
        obtain ⟨expanded, bodyRan, _⟩ := bind_pure_eq_ok_iff.mp (Option.some.inj given).symm
        cases defined.symm.trans isExpr
        exact ih word.name _ mentioned isExpr inactive bodyRan refersTo nextReaches
      | _ => cases given

/-- A circular use in an expression comes back to an active name, or to a name on the way. -/
theorem ExprExpansion.revisits {outcome : Lowering (Revised Expr)}
    (expansion : ExprExpansion definitions active e outcome) {name : String}
    (circular : outcome = refuse (.circularUse name) loc) :
    ∃ start, e.Mentions start ∧ Revisits (Leads definitions) active start name := by
  induction expansion with
  | intro expand inner ends ih =>
    rw [exprRule_eq] at ends
    obtain ⟨word, wordLoc, mentioned, answered⟩ :=
      exists_ident_of_revise _ (ends.trans circular)
    refine ⟨word.name, mentioned, ?_⟩
    generalize given : some (Except.error _) = asked at answered
    cases named_of_nameRule answered with
    | undefined _ => cases given
    | misused _ => cases given
    | circular _ isActive =>
      cases given
      exact .inl ⟨.refl, isActive⟩
    | entered isExpr inactive =>
      rcases bind_eq_error_iff.mp (Option.some.inj given).symm with bodyFailed | ⟨_, _, impossible⟩
      · obtain ⟨next, nextMentioned, revisits⟩ :=
          ih word.name _ mentioned isExpr inactive bodyFailed
        have step : Leads definitions word.name next := ⟨_, isExpr, nextMentioned⟩
        exact revisits.of_step step
      · cases impossible

end Expressions

/-! ## Statements -/

section Statements

variable {definitions : Table Definition} {active : List String}
  {expand : String → List Stmt → Lowering (List Stmt)} {value : Expr → Lowering (Revised Expr)}

theorem plain_or_use_of_definition? (undefined : s.definition? = none) :
    (∃ word tag, s = .use word tag) ∨ s.isDefinitional = false := by
  cases s with
  | use word tag => exact .inl ⟨word, tag, rfl⟩
  | defineExpr name body tag => cases undefined
  | defineBlock name body tag => cases undefined
  | _ => exact .inr rfl

/-- No definition stands inside a definition. -/
def Flat (definitions : Table Definition) : Prop :=
  ∀ name body, definitions.get? name = some (.block body) → ∀ t ∈ body, t.definition? = none

/-- The statement is one of these, or stands in the body of a definition. -/
def StandsIn (definitions : Table Definition) (statements : List Stmt) (t : Stmt) : Prop :=
  t ∈ statements ∨ ∃ name body, definitions.get? name = some (.block body) ∧ t ∈ body

/-- A statement as it is after expansion. -/
structure IsExpanded (definitions : Table Definition) (statements : List Stmt) (t : Stmt) :
    Prop where
  plain : t.isDefinitional = false
  names : t.PartsSatisfy (fun _ => True) (NamesNone definitions)
  trigger : ∀ condition actions tag, t = .trigger condition actions tag →
    StandsIn definitions statements t

theorem IsExpanded.of_body {body : List Stmt} {name : String}
    (found : definitions.get? name = some (.block body)) {t : Stmt}
    (expanded : IsExpanded definitions body t) :
    IsExpanded definitions statements t where
  plain := expanded.plain
  names := expanded.names
  trigger := by
    intro condition actions tag isTrigger
    rcases expanded.trigger condition actions tag isTrigger with inBody | inDefinition
    · exact .inr ⟨name, body, found, inBody⟩
    · exact .inr inDefinition

/-- No definition, no use and no defined name is left in expanded statements. -/
theorem StmtsExpansion.yields (flat : Flat definitions)
    (undefined : ∀ s ∈ statements, s.definition? = none)
    (expansion : StmtsExpansion definitions active statements outcome) :
    Yields (fun lowered => ∀ t ∈ lowered, IsExpanded definitions statements t) outcome := by
  induction expansion with
  | intro expand value inner values ends ih =>
    rw [← ends, stmtRule_eq]
    refine Yields.lowerEach (fun s member => ?_) fun s member => member
    rcases plain_or_use_of_definition? (undefined s member) with ⟨word, tag, rfl⟩ | plain
    · generalize asked : useRule _ _ _ _ _ = given
      cases used_of_useRule asked with
      | refused _ => exact .of_refuse _ _
      | circular _ _ => exact .of_refuse _ _
      | entered found inactive =>
        apply (ih word tag _ member found inactive (flat word.name _ found)).mono
        intro lowered expanded t isLowered
        exact (expanded t isLowered).of_body found
    · rw [useRule_of_not_isDefinitional plain]
      have targets : ∀ e : Expr, True → Becomes (fun _ => True) (unrevised e) :=
        fun e _ => becomes_unrevised True.intro
      have parts := (Stmt.partsSatisfy_hasPart s).revise targets
        fun e isPart => (values s member e isPart).becomes
      apply (parts.and_ofResult fun s' ran => Stmt.plain_of_revise plain ran).bind
      intro s' ⟨names, newPlain, isSame⟩
      apply Yields.of_pure
      refine List.forall_mem_singleton.mpr ⟨newPlain, names, ?_⟩
      intro condition actions tag isTrigger
      rw [← isSame condition actions tag isTrigger]
      exact .inl member

theorem StmtsExpansion.not_reachesCircle (flat : Flat definitions)
    (undefined : ∀ s ∈ statements, s.definition? = none)
    (expansion : StmtsExpansion definitions active statements outcome)
    (found : outcome = .ok lowered) (member : s ∈ statements) {name : String}
    (refersTo : s.RefersTo name) : ¬ReachesCircle (Leads definitions) name := by
  induction expansion generalizing lowered s name with
  | intro expand value inner values ends ih =>
    obtain ⟨part, ran⟩ := exists_ok_of_lowerEach (ends.trans found) member
    rw [stmtRule_eq] at ran
    rcases plain_or_use_of_definition? (undefined s member) with ⟨word, tag, rfl⟩ | plain
    · generalize asked : useRule _ _ _ _ _ = given at ran
      cases used_of_useRule asked with
      | refused _ => cases ran
      | circular _ _ => cases ran
      | entered isBlock inactive =>
        intro reaches
        cases refersTo
        obtain ⟨next, ⟨definition, defined, refersTo⟩, nextReaches⟩ := reaches.exists_step
        cases defined.symm.trans isBlock
        obtain ⟨t, inBody, bodyRefers⟩ := refersTo
        exact ih word tag _ member isBlock inactive (flat word.name _ isBlock)
          ran inBody bodyRefers nextReaches
    · obtain ⟨e, isPart, mentioned⟩ := refersTo.exists_part plain
      rw [useRule_of_not_isDefinitional plain] at ran
      obtain ⟨s', stmtRan, _⟩ := bind_pure_eq_ok_iff.mp ran
      obtain ⟨newPart, partRan⟩ := Stmt.exists_ok_of_revise stmtRan isPart
      exact (values s member e isPart).not_reachesCircle partRan mentioned

theorem StmtsExpansion.revisits (flat : Flat definitions)
    (undefined : ∀ s ∈ statements, s.definition? = none)
    (expansion : StmtsExpansion definitions active statements outcome) {name : String}
    (circular : outcome = refuse (.circularUse name) loc) :
    ∃ s ∈ statements, ∃ start, s.RefersTo start ∧
      Revisits (Leads definitions) active start name := by
  induction expansion with
  | intro expand value inner values ends ih =>
    obtain ⟨s, member, failed⟩ := exists_error_of_lowerEach (ends.trans circular)
    refine ⟨s, member, ?_⟩
    rw [stmtRule_eq] at failed
    rcases plain_or_use_of_definition? (undefined s member) with ⟨word, tag, rfl⟩ | plain
    · refine ⟨word.name, rfl, ?_⟩
      generalize asked : useRule _ _ _ _ _ = given at failed
      cases used_of_useRule asked with
      | refused notCircular =>
        cases failed
        exact absurd rfl (notCircular name)
      | circular _ isActive =>
        cases failed
        exact .inl ⟨.refl, isActive⟩
      | entered isBlock inactive =>
        obtain ⟨t, inBody, next, nextRefers, revisits⟩ :=
          ih word tag _ member isBlock inactive (flat word.name _ isBlock) failed
        have step : Leads definitions word.name next := ⟨_, isBlock, t, inBody, nextRefers⟩
        exact revisits.of_step step
    · rw [useRule_of_not_isDefinitional plain] at failed
      rcases bind_eq_error_iff.mp failed with inParts | ⟨_, _, impossible⟩
      · obtain ⟨e, isPart, partFailed⟩ := Stmt.exists_part_of_revise inParts
        obtain ⟨start, mentioned, revisits⟩ := (values s member e isPart).revisits partFailed
        exact ⟨start, Stmt.refersTo_of_part isPart mentioned, revisits⟩
      · cases impossible

end Statements

/-! ## Programs -/

section Programs

variable {registry : Registry} {definitions : Table Definition} {program : List Stmt}

variable {collected : Collected} (ran : collect registry .empty program = .ok collected)

include ran

theorem leads_collect : Leads collected.definitions = Refers program := by
  funext name other
  apply propext
  simp only [Leads, Refers, get?_collect ran]

theorem flat_collect
    (flat : ∀ name body, Defines program name (.block body) → ∀ t ∈ body, t.definition? = none) :
    Flat collected.definitions := by
  intro name body found
  exact flat name body ((get?_collect ran).mp found)

theorem standsIn_collect {t : Stmt}
    (stands : StandsIn collected.definitions collected.statements t) :
    t ∈ program ∨ ∃ name body, Defines program name (.block body) ∧ t ∈ body := by
  rcases stands with inStatements | ⟨name, body, found, inBody⟩
  · exact .inl ((mem_collect ran).mp inStatements).1
  · exact .inr ⟨name, body, (get?_collect ran).mp found, inBody⟩

theorem not_mentioned_of_isExpanded
    (expanded : ∀ t ∈ lowered, IsExpanded collected.definitions collected.statements t)
    {name : String} (member : name ∈ definedNames program) : ¬Mentioned name lowered := by
  rintro ⟨t, isLowered, hasPart⟩
  obtain ⟨definition, defines⟩ := mem_definedNames.mp member
  have found := (get?_collect ran).mpr defines
  obtain ⟨e, names, mentioned⟩ := (expanded t isLowered).names.of_hasPart hasPart
  rw [names name mentioned] at found
  cases found

theorem not_hasCircle_of_expansion (flat : Flat collected.definitions)
    (expansion : StmtsExpansion collected.definitions [] collected.statements outcome)
    (found : outcome = .ok lowered) : ¬HasCircle program := by
  rintro ⟨s, member, isStatement, name, refersTo, reaches⟩
  have undefined : ∀ t ∈ collected.statements, t.definition? = none :=
    fun t isCollected => ((mem_collect ran).mp isCollected).2
  have isCollected := (mem_collect ran).mpr ⟨member, isStatement⟩
  rw [← leads_collect ran] at reaches
  exact expansion.not_reachesCircle flat undefined found isCollected refersTo reaches

theorem hasCircle_of_expansion (flat : Flat collected.definitions)
    (expansion : StmtsExpansion collected.definitions [] collected.statements outcome)
    {name : String} (circular : outcome = refuse (.circularUse name) loc) : HasCircle program := by
  have undefined : ∀ t ∈ collected.statements, t.definition? = none :=
    fun t isCollected => ((mem_collect ran).mp isCollected).2
  obtain ⟨s, isCollected, start, refersTo, revisits⟩ :=
    expansion.revisits flat undefined circular
  obtain ⟨member, isStatement⟩ := (mem_collect ran).mp isCollected
  rcases revisits with ⟨_, impossible⟩ | reaches
  · cases impossible
  · rw [leads_collect ran] at reaches
    exact ⟨s, member, isStatement, start, refersTo, reaches⟩

end Programs

/-- Definitions are expanded to the end, for every program without definitions inside definitions
and however they refer to each other.  There is exactly one expansion and it is found.  If it
succeeds, no definition or use is left, no value or condition mentions a defined name, triggers
stand as they stood, and no statement leads to a circle of definitions; and it is refused for a
circular use only if some statement does. -/
theorem lower_complete
    (registry : Registry) (program : List Stmt)
    (flat : ∀ name body, Defines program name (.block body) → ∀ t ∈ body, t.definition? = none) :
    (∀ outcome, Expansion registry program outcome ↔ outcome = lower registry program) ∧
      (∀ defect, lower registry program ≠ .error (.defect defect)) ∧
      (∀ lowered, lower registry program = .ok lowered →
        (∀ s ∈ lowered, s.isDefinitional = false) ∧
          (∀ name ∈ definedNames program, ¬Mentioned name lowered) ∧
          (∀ condition actions tag, .trigger condition actions tag ∈ lowered →
            .trigger condition actions tag ∈ program ∨
              ∃ name body, Defines program name (.block body) ∧
                .trigger condition actions tag ∈ body) ∧
          ¬HasCircle program) ∧
      ∀ name loc, lower registry program = refuse (.circularUse name) loc → HasCircle program := by
  have expansion : Expansion registry program (lower registry program) := expansion_iff.mpr rfl
  refine ⟨fun outcome => expansion_iff, ?_⟩
  rcases expansion with ⟨failure, failed, ends⟩ | ⟨collected, ran, expansion⟩
  · obtain ⟨error, errorLoc, rfl, notCircular⟩ := collect_eq_error failed
    rw [ends]
    refine ⟨fun defect same => ?_, fun lowered same => ?_, fun name loc same => ?_⟩
    · cases same
    · cases same
    · cases same
      exact absurd rfl (notCircular name)
  · have flatTable := flat_collect ran flat
    have undefined : ∀ t ∈ collected.statements, t.definition? = none :=
      fun t isCollected => ((mem_collect ran).mp isCollected).2
    have yields := expansion.yields flatTable undefined
    refine ⟨yields.noDefect, fun lowered found => ?_, fun name loc circular => ?_⟩
    · have expanded := yields.result found
      refine ⟨fun s member => (expanded s member).plain, ?_, ?_, ?_⟩
      · intro name member
        exact not_mentioned_of_isExpanded ran expanded member
      · intro condition actions tag member
        exact standsIn_collect ran ((expanded _ member).trigger condition actions tag rfl)
      · exact not_hasCircle_of_expansion ran flatTable expansion found
    · exact hasCircle_of_expansion ran flatTable expansion circular

/-- Statements that are defined with the help of other statements and of expressions, before these
are defined. -/
def nestedDefinitions : List Stmt :=
  let word (name : String) : Ident := ⟨name, none⟩
  let name (text : String) : Expr := .ident (word text) none
  let tag : Tag := ⟨none, none⟩
  [.use (word "Setup") tag,
    .defineBlock (word "Setup")
      [.assign (name "x") (.compound .and [name "Low", name "Low"] none) none tag,
        .use (word "Close") tag] tag,
    .defineBlock (word "Close")
      [.openBlock (name "High") tag, .assign (name "Low") (name "y") (some (name "Low")) tag,
        .closeBlock tag] tag,
    .defineExpr (word "High") (.compound .not [name "Low"] none) tag,
    .defineExpr (word "Low") (.boolean false none) tag]

/-- Two definitions that refer to each other, one of statements and one of an expression. -/
def mutualDefinitions : List Stmt :=
  let word (name : String) : Ident := ⟨name, none⟩
  let name (text : String) : Expr := .ident (word text) none
  let tag : Tag := ⟨none, none⟩
  [.defineExpr (word "First") (name "Second") tag,
    .defineExpr (word "Second") (.list [name "z", name "First"] none none) tag,
    .defineBlock (word "Setup") [.assign (name "x") (name "Second") none tag] tag,
    .use (word "Setup") tag]

def failure? {α : Type} : Lowering α → Option Failure
  | .error failure => some failure
  | .ok _ => none

theorem lower_complete_nestedDefinitions :
    (∃ lowered, lower .empty nestedDefinitions = .ok lowered ∧ lowered.length = 4 ∧
        ¬Mentioned "Low" lowered ∧ ¬HasCircle nestedDefinitions) ∧
      lower .empty mutualDefinitions = refuse (.circularUse "Second") none ∧
      HasCircle mutualDefinitions := by
  have nestedFlat : ∀ name body, Defines nestedDefinitions name (.block body) →
      ∀ t ∈ body, t.definition? = none := by
    rintro name body ⟨s, member, word, defined, _⟩
    simp only [nestedDefinitions, List.mem_cons, List.not_mem_nil, or_false] at member
    rcases member with rfl | rfl | rfl | rfl | rfl <;> cases defined <;> decide
  have mutualFlat : ∀ name body, Defines mutualDefinitions name (.block body) →
      ∀ t ∈ body, t.definition? = none := by
    rintro name body ⟨s, member, word, defined, _⟩
    simp only [mutualDefinitions, List.mem_cons, List.not_mem_nil, or_false] at member
    rcases member with rfl | rfl | rfl | rfl <;> cases defined <;> decide
  obtain ⟨_, _, expands, _⟩ := lower_complete .empty nestedDefinitions nestedFlat
  obtain ⟨_, _, _, circular⟩ := lower_complete .empty mutualDefinitions mutualFlat
  have counted : (lower .empty nestedDefinitions).toOption.map List.length = some 4 := by
    decide +kernel
  have failed : failure? (lower .empty mutualDefinitions) =
      some (.refused ⟨.semantic (.circularUse "Second"), none⟩) := by
    decide +kernel
  have refused : lower .empty mutualDefinitions = refuse (.circularUse "Second") none := by
    cases found : lower .empty mutualDefinitions with
    | error failure =>
        rw [found] at failed
        exact congrArg Except.error (Option.some.inj failed)
    | ok lowered =>
        rw [found] at failed
        cases failed
  obtain ⟨lowered, found, fourStatements⟩ := exists_ok_of_toOption_map counted
  obtain ⟨_, undefined, _, noCircle⟩ := expands lowered found
  exact ⟨⟨lowered, found, fourStatements, undefined "Low" (by decide), noCircle⟩, refused,
    circular "Second" none refused⟩

end Definition

end AutomationScript
