import AutomationScript.Lowering.Types
import AutomationScript.Proofs.Lowering.Families
import AutomationScript.Proofs.Lowering.Stated

/-!
# Checking the types of lowered programs

Checking types meets no expression or statement that it has no type for.  A condition that passes
has a boolean at its root, so that arithmetic never gets there.
-/

namespace AutomationScript

namespace Types

variable {registry : Registry} {reference : Ident → Expr → Prop}

/-- The parts of an assignment that passes the check. -/
def Passed (registry : Registry) (reference : Ident → Expr → Prop)
    (left right : Expr) (own : Option Expr) : Prop :=
  Assigned (Expr.IsSetting registry) Expr.IsStated (Expr.IsCondition reference) left right own ∧
    ∀ tag, checkStmt registry (.assign left right own tag) = .ok ()

theorem yields_expect (loc : Option Location) (actual expected : Ty) :
    Yields (fun _ => actual.fits expected = true) (expect loc actual expected) := by
  unfold expect
  split
  · next fits => exact fits
  · exact Yields.of_refuse _ _

theorem yields_expectAll (expected : Ty) (typed : List (Expr × Ty)) :
    Yields (fun _ => True) (expectAll expected typed) := by
  induction typed with
  | nil => exact True.intro
  | cons first rest ih => exact (yields_expect first.1.loc first.2 expected).bind fun _ _ => ih

theorem yields_subscriptType (registry : Registry) (base : Ident) (key : Expr) :
    Yields (fun _ => True) (subscriptType registry base key) := by
  unfold subscriptType
  split
  · exact True.intro
  · split
    · exact Yields.of_refuse _ _
    · split
      · split
        · exact True.intro
        · exact Yields.of_refuse _ _
      · split
        · exact Yields.of_refuse _ _
        · split
          · split
            · exact True.intro
            · exact Yields.of_refuse _ _
          · split
            · exact True.intro
            · exact Yields.of_refuse _ _

theorem yields_operatorType (operator : Operator) (typed : List (Expr × Ty)) :
    Yields (fun type => type = .known (if operator.producesBoolean then .boolean else .number))
      (operatorType operator typed) := by
  have all : ∀ expected : Ty, Yields (fun _ => True) (expectAll expected typed) :=
    fun expected => yields_expectAll expected typed
  have equal : Yields (fun type => type = .known .boolean) (operatorType .eq typed) := by
    simp only [operatorType]
    split
    · split
      · exact (yields_expect _ _ _).bind fun _ _ => rfl
      · rfl
    · rfl
  cases operator with
  | eq => exact equal
  | ne => exact equal
  | _ => exact (all _).bind fun _ _ => rfl

theorem yields_typeOf_stated (registry : Registry) {e : Expr} (stated : e.IsStated) :
    Yields (fun _ => True) (typeOf registry e) := by
  cases stated <;> exact True.intro

theorem yields_typeOf_operand (registry : Registry) {e : Expr} (isOperand : e.IsOperand reference) :
    Yields (fun _ => True) (typeOf registry e) := by
  cases isOperand with
  | stated _ stated => exact yields_typeOf_stated registry stated
  | subscript base key loc _ _ => exact yields_subscriptType registry base key

theorem yields_typeOfAll (registry : Registry) {args : List Expr}
    (operands : ∀ arg ∈ args, arg.IsOperand reference) :
    Yields (fun _ => True) (typeOfAll registry args) := by
  induction args with
  | nil => exact True.intro
  | cons arg rest ih =>
    obtain ⟨first, others⟩ := List.forall_mem_cons.mp operands
    have firstTyped := yields_typeOf_operand registry first
    exact firstTyped.bind fun _ _ => (ih others).bind fun _ _ => True.intro

theorem yields_checkCondition (registry : Registry) {e : Expr}
    (isCondition : e.IsCondition reference) :
    Yields (fun _ => True) (checkCondition registry e) := by
  have typed : Yields (fun _ => True) (typeOf registry e) := by
    cases isCondition with
    | operand _ isOperand => exact yields_typeOf_operand registry isOperand
    | compound operator args loc arity operands =>
      refine (yields_typeOfAll registry operands).bind fun typed _ => ?_
      exact (yields_operatorType operator typed).mono fun _ _ => True.intro
  exact typed.bind fun _ _ => (yields_expect _ _ _).mono fun _ _ => True.intro

theorem producesBoolean_of_checkCondition {operator : Operator} {args : List Expr}
    {loc : Option Location}
    (checked : checkCondition registry (.compound operator args loc) = .ok ()) :
    operator.producesBoolean = true := by
  obtain ⟨type, typed, fitting⟩ := bind_eq_ok_iff.mp checked
  obtain ⟨argTypes, _, typed⟩ := bind_eq_ok_iff.mp typed
  have isKnown := (yields_operatorType operator argTypes).result typed
  have fits := (yields_expect _ _ _).result fitting
  rw [isKnown] at fits
  cases produces : operator.producesBoolean with
  | true => rfl
  | false =>
    rw [produces] at fits
    cases fits

theorem yields_checkAssign {left right : Expr} {own : Option Expr} (tag : Tag)
    (assigned : Assigned (Expr.IsSetting registry) Expr.IsStated (Expr.IsCondition reference)
      left right own) :
    Yields (fun _ => True) (checkStmt registry (.assign left right own tag)) := by
  obtain ⟨⟨word, loc, rfl, known⟩, stated, ownConditions⟩ := assigned
  obtain ⟨declared, found⟩ := Option.isSome_iff_exists.mp known
  simp only [checkStmt, Expr.name?, found]
  refine (yields_typeOf_stated registry stated).bind fun type _ => ?_
  refine (yields_expect _ _ _).bind fun _ _ => ?_
  cases own with
  | none => exact True.intro
  | some condition => exact yields_checkCondition registry (ownConditions condition rfl)

variable {fired : TriggerArg → List TriggerArg → Prop}

theorem yields_checkStmt {s : Stmt}
    (flat : s.Flat
      (Assigned (Expr.IsSetting registry) Expr.IsStated (Expr.IsCondition reference)) fired) :
    Yields (fun _ => s.Flat (Passed registry reference) fired) (checkStmt registry s) := by
  cases flat with
  | trigger awaited actions tag holds => exact .trigger awaited actions tag holds
  | assign left right own tag assigned =>
    have passes := (yields_checkAssign tag assigned).and_ofResult fun _ ran => ran
    exact passes.mono fun _ passed => .assign left right own tag ⟨assigned, fun _ => passed.2⟩

theorem yields_lower {program : List Stmt}
    (flat : ∀ s ∈ program, s.Flat
      (Assigned (Expr.IsSetting registry) Expr.IsStated (Expr.IsCondition reference)) fired) :
    Yields (fun lowered => ∀ s ∈ lowered, s.Flat (Passed registry reference) fired)
      (lower registry program) := by
  have checked : Yields (fun _ => ∀ s ∈ program, s.Flat (Passed registry reference) fired)
      (checkAll registry program) := by
    induction program with
    | nil => exact List.forall_mem_nil _
    | cons s rest ih =>
      obtain ⟨first, others⟩ := List.forall_mem_cons.mp flat
      refine (yields_checkStmt first).bind fun _ firstChecked => ?_
      exact (ih others).mono fun _ restChecked =>
        List.forall_mem_cons.mpr ⟨firstChecked, restChecked⟩
  exact checked.bind fun _ allChecked => allChecked

theorem Passed.checkCondition {left right condition : Expr}
    (passed : Passed registry reference left right (some condition)) :
    checkCondition registry condition = .ok () := by
  obtain ⟨⟨⟨word, loc, rfl, known⟩, _, _⟩, checked⟩ := passed
  obtain ⟨declared, found⟩ := Option.isSome_iff_exists.mp known
  have checked := checked default
  simp only [checkStmt, Expr.name?, found] at checked
  obtain ⟨_, _, checked⟩ := bind_eq_ok_iff.mp checked
  obtain ⟨_, _, checked⟩ := bind_eq_ok_iff.mp checked
  exact checked

end Types

end AutomationScript
