import AutomationScript.Proofs.Grammar.Written
import AutomationScript.Proofs.Lowering.Chains
import AutomationScript.Proofs.Lowering.Definitions
import AutomationScript.Proofs.Lowering.Placeholders
import AutomationScript.Proofs.Lowering.Types
import AutomationScript.Proofs.Lowering.Wildcards

/-!
# Forms of programs between the lowering steps

Every step takes its input to its output without a defect (`Stage.yields_run`), and nothing is left
of what the step removes (`Stage.not_hasLeftover`), except that lists can stay in targets.
-/

namespace AutomationScript

open List

variable {registry : Registry} {program : List Stmt} {e : Expr}

theorem keysNamed_reference (registry : Registry) :
    Expr.KeysNamed (Families.Reference registry) := by
  intro base key isReference
  obtain ⟨word, loc, same, _⟩ := isReference.named
  exact ⟨word, loc, same⟩

theorem complete_surface (registry : Registry) : registry.surface.Complete where
  names _ isName := .inl isName
  wildcards := True.intro
  lists := True.intro
  placeholders := True.intro

theorem hasSuffixes_surface (registry : Registry) : registry.surface.HasSuffixes registry where
  lists := True.intro
  names base family found _ isSuffix := .inr ⟨base, family, found, isSuffix⟩

namespace Stage

def Output (registry : Registry) : Stage → List Stmt → Prop
  | .definitions =>
    Composed (Stmt.Fits (Expr.Target registry.surface) (Expr.Written registry.surface))
  | .wildcards =>
    Composed (Stmt.Fits (Expr.Target registry.surface.withoutWildcards)
      (Expr.Written registry.surface.withoutWildcards))
  | .lists =>
    Composed (Stmt.Fits (Expr.Target registry.surface.withoutWildcards)
      (Expr.Written registry.surface.withoutWildcards.withoutLists))
  | .placeholders =>
    Composed (Stmt.Fits (Expr.Target registry.surface.withoutWildcards.withoutPlaceholders)
      (Expr.Written registry.plain))
  | .aliases =>
    Composed (Stmt.Fits (Expr.Target registry.surface.withoutWildcards.withoutPlaceholders)
      (Expr.Formed (Alias.Resolved registry)))
  | .families =>
    Composed (Stmt.Fits (Expr.IsSetting registry) (Expr.Formed (Families.Reference registry)))
  | .blocks => fun program => ∀ s ∈ program,
    s.Flat (Assigned (Expr.IsSetting registry) (Expr.Formed (Families.Reference registry))
      (Expr.Formed (Families.Reference registry))) ArgsWritten
  | .conditions => fun program => ∀ s ∈ program,
    s.Flat (Assigned (Expr.IsSetting registry) Expr.IsStated
      (Expr.IsCondition (Families.Reference registry))) ArgsWritten
  | .types => fun program => ∀ s ∈ program,
    s.Flat (Types.Passed registry (Families.Reference registry)) ArgsWritten
  | .chains => fun program => ∀ s ∈ program,
    s.Flat (Types.Passed registry (Families.Reference registry)) (Chains.Split registry)

def Input (registry : Registry) : Stage → List Stmt → Prop
  | .definitions => Composed (Stmt.Parsed registry.surface)
  | .wildcards => Output registry .definitions
  | .lists => Output registry .wildcards
  | .placeholders => Output registry .lists
  | .aliases => Output registry .placeholders
  | .families => Output registry .aliases
  | .blocks => Output registry .families
  | .conditions => Output registry .blocks
  | .types => Output registry .conditions
  | .chains => Output registry .types

/-- No step meets what it has no place for, and each does its part. -/
theorem yields_run (stage : Stage) (input : stage.Input registry program) :
    Yields (stage.Output registry) (stage.run registry program) := by
  cases stage with
  | definitions => exact Definition.yields_lower registry input
  | wildcards => exact Wildcard.yields_lower (hasSuffixes_surface registry) input
  | lists => exact Lists.yields_lower registry input
  | placeholders =>
    have sameNames : ∀ name, registry.surface.withoutWildcards.isName name →
        registry.surface.withoutWildcards.withoutLists.isName name := fun _ => id
    exact Placeholder.yields_lower sameNames input
  | aliases => exact Alias.yields_lower input
  | families => exact Families.yields_lower input
  | blocks => exact Blocks.yields_lower input
  | conditions => exact Conditions.yields_lower (keysNamed_reference registry) input
  | types => exact Types.yields_lower input
  | chains => exact Chains.yields_lower input

end Stage

/-- Every script without errors is read as a program that the first step can take. -/
theorem input_of_parse (registry : Registry) {source : String}
    (parsed : parse source = (program, [])) : Stage.definitions.Input registry program :=
  composed_of_parse (complete_surface registry) parsed

/-- Runs several steps, one after the other, without checks between them. -/
def runStages (registry : Registry) (stages : List Stage) (program : List Stmt) :
    Lowering (List Stmt) :=
  stages.foldlM (fun lowered stage => stage.run registry lowered) program

theorem runStages_cons_eq_ok_iff {stage : Stage} {rest : List Stage} {lowered : List Stmt} :
    runStages registry (stage :: rest) program = .ok lowered ↔
      ∃ next, stage.run registry program = .ok next ∧ runStages registry rest next = .ok lowered :=
  bind_eq_ok_iff

def Stage.next : Stage → Stage
  | .definitions => .wildcards
  | .wildcards => .lists
  | .lists => .placeholders
  | .placeholders => .aliases
  | .aliases => .families
  | .families => .blocks
  | .blocks => .conditions
  | .conditions => .types
  | .types | .chains => .chains

theorem Stage.input_next {stage : Stage} (notLast : stage ≠ .chains)
    (output : stage.Output registry program) : stage.next.Input registry program := by
  cases stage with
  | chains => exact absurd rfl notLast
  | _ => exact output

inductive Stage.InOrder : (first : Stage) → List Stage → (last : Stage) → Prop
  | single (stage : Stage) : InOrder stage [stage] stage
  | cons {stage last : Stage} {rest : List Stage} :
      stage ≠ .chains → InOrder stage.next rest last → InOrder stage (stage :: rest) last

/-- What each of several steps in order keeps is kept by all of them. -/
theorem Stage.InOrder.yields {first last : Stage} {stages : List Stage}
    (inOrder : InOrder first stages last) (kept : List Stmt → Prop)
    {step : Stage → List Stmt → Lowering (List Stmt)}
    (keeps : ∀ stage ∈ stages, ∀ program, stage.Input registry program → kept program →
      Yields (fun lowered => stage.Output registry lowered ∧ kept lowered) (step stage program))
    (input : first.Input registry program) (holds : kept program) :
    Yields (fun lowered => last.Output registry lowered ∧ kept lowered)
      (stages.foldlM (fun lowered stage => step stage lowered) program) := by
  induction inOrder generalizing program with
  | single stage =>
    exact (keeps stage mem_cons_self program input holds).bind fun _ output => output
  | cons notLast _ ih =>
    refine (keeps _ mem_cons_self program input holds).bind fun lowered output => ?_
    exact ih (fun stage member => keeps stage (mem_cons_of_mem _ member))
      (input_next notLast output.1) output.2

theorem Stage.inOrder_all : InOrder .definitions Stage.all .chains := by
  repeat first | exact .single _ | refine .cons (by decide) ?_

theorem output_of_runStages {lowered : List Stmt}
    (input : Stage.definitions.Input registry program)
    (ran : runStages registry Stage.all program = .ok lowered) :
    Stage.chains.Output registry lowered :=
  ((Stage.inOrder_all.yields (fun _ => True) (fun stage _ _ input _ =>
    (stage.yields_run input).mono fun _ output => ⟨output, trivial⟩) input trivial).result ran).1

/-! ## What is left after a step -/

theorem Stmt.Fits.not_hasNode {target value : Expr → Prop} {targets keys : Bool}
    {test : Expr → Bool}
    (inTargets : targets = true → ∀ e, target e → e.hasNode true test = false)
    (inValues : ∀ e, value e → e.hasNode keys test = false) {s : Stmt}
    (fits : s.Fits target value) : s.hasNode targets keys test = false := by
  cases s with
  | assign left right condition tag =>
    obtain ⟨leftFits, rightFits, conditionFits⟩ := fits
    have noTarget : (targets && left.hasNode true test) = false := by
      cases targets with
      | false => rfl
      | true => exact inTargets rfl left leftFits
    rw [hasNode, noTarget, inValues right rightFits]
    cases condition with
    | none => rfl
    | some own => exact inValues own (conditionFits own rfl)
  | openBlock condition tag => exact inValues condition fits
  | _ => rfl

theorem Expr.Written.not_isWildcard {f : Forms} (written : e.Written f.withoutWildcards) :
    e.isWildcard = false := by
  cases written with
  | wildcard loc impossible => exact impossible.elim
  | _ => rfl

theorem Expr.Written.not_isPlaceholder {f : Forms} (written : e.Written f.withoutPlaceholders) :
    e.isPlaceholder = false := by
  cases written with
  | placeholder loc impossible => exact impossible.elim
  | _ => rfl

theorem Expr.Formed.not_hasIdent {reference : Ident → Expr → Prop} (formed : e.Formed reference) :
    e.hasNode false Expr.isIdent = false := by
  induction formed with
  | compound operator args loc arity each ih =>
    rw [hasNode, anyHasNode_eq_any, any_eq_false.mpr]
    · rfl
    · intro arg member
      rw [ih arg member]
      exact Bool.false_ne_true
  | _ => rfl

namespace Stage

theorem not_hasLeftover {stage : Stage} (notLists : stage ≠ .lists)
    (output : stage.Output registry program) : stage.hasLeftover program = false := by
  cases stage with
  | lists => exact absurd rfl notLists
  | families => rfl
  | conditions => rfl
  | types => rfl
  | definitions =>
    refine any_eq_false.mpr fun s member isDefinitional => ?_
    have fits := output.each s member
    cases s with
    | defineExpr name body tag => exact fits
    | defineBlock name body tag => exact fits
    | use name tag => exact fits
    | _ => cases isDefinitional
  | wildcards =>
    have none : ∀ e : Expr, e.Written registry.surface.withoutWildcards →
        e.hasNode true Expr.isWildcard = false := by
      intro e written
      exact written.not_hasNode true (fun _ _ => rfl) fun _ => Expr.Written.not_isWildcard
    refine any_eq_false.mpr fun s member => Bool.eq_false_iff.mp ?_
    exact (output.each s member).not_hasNode (fun _ e isTarget => none e isTarget.written) none
  | placeholders =>
    have none : ∀ {f : Forms} (e : Expr), e.Written f.withoutPlaceholders →
        e.hasNode true Expr.isPlaceholder = false :=
      fun e written => written.not_hasNode true (fun _ _ => rfl)
        fun _ => Expr.Written.not_isPlaceholder
    refine any_eq_false.mpr fun s member => Bool.eq_false_iff.mp ?_
    exact (output.each s member).not_hasNode (fun _ e isTarget => none e isTarget.written)
      fun e written => none (f := registry.plain) e written
  | aliases =>
    refine any_eq_false.mpr fun s member => Bool.eq_false_iff.mp ?_
    exact (output.each s member).not_hasNode nofun fun e formed => formed.not_hasIdent
  | blocks =>
    refine any_eq_false.mpr fun s member isMark => ?_
    cases output s member <;> cases isMark
  | chains =>
    refine any_eq_false.mpr fun s member isUnsplit => ?_
    cases output s member with
    | assign left right own tag passed => cases isUnsplit
    | trigger awaited actions tag split =>
      obtain ⟨_, action, rfl, _⟩ := split
      cases isUnsplit

/-- After lists are resolved, a list is left exactly when a target has one. -/
theorem hasLeftover_lists_iff (output : Stage.lists.Output registry program) :
    Stage.lists.hasLeftover program = true ↔
      ∃ target value condition tag, Stmt.assign target value condition tag ∈ program ∧
        target.hasNode true Expr.isList = true := by
  have none : ∀ e : Expr, e.Written registry.surface.withoutWildcards.withoutLists →
      e.hasNode true Expr.isList = false :=
    fun e written => written.not_hasNode true (fun _ _ => rfl) fun _ => Lists.not_isList_of_written
  rw [hasLeftover, any_eq_true]
  constructor
  · rintro ⟨s, member, hasList⟩
    have fits := output.each s member
    cases s with
    | assign target value condition tag =>
      refine ⟨target, value, condition, tag, member, ?_⟩
      cases inTarget : target.hasNode true Expr.isList with
      | true => rfl
      | false =>
        obtain ⟨_, valueWritten, conditionWritten⟩ := fits
        rw [Stmt.hasNode, inTarget, none value valueWritten] at hasList
        cases condition with
        | none => cases hasList
        | some own =>
          have noList := none own (conditionWritten own rfl)
          rw [Option.map_some, Option.getD_some, noList] at hasList
          cases hasList
    | openBlock condition tag =>
      rw [Stmt.hasNode, none condition fits] at hasList
      cases hasList
    | _ => cases hasList
  · rintro ⟨target, value, condition, tag, member, inTarget⟩
    refine ⟨_, member, ?_⟩
    rw [Stmt.hasNode, inTarget]
    rfl

end Stage

end AutomationScript
