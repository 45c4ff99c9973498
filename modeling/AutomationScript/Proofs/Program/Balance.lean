import AutomationScript.Proofs.Lowering.Outcome
import AutomationScript.Proofs.Program.Forms

/-!
# Balanced blocks

A program is balanced when its block marks come in pairs.
-/

namespace AutomationScript

open List

/-- The number of open blocks after a statement, unless it closes a block that is not open. -/
def Stmt.depthAfter (depth : Nat) : Stmt → Option Nat
  | .openBlock _ _ => some (depth + 1)
  | .closeBlock _ =>
    match depth with
    | 0 => none
    | outer + 1 => some outer
  | _ => some depth

def blockDepth (depth : Nat) (program : List Stmt) : Option Nat :=
  program.foldlM Stmt.depthAfter depth

/-- Every block that is opened is closed, and none that was open before. -/
def Balanced (program : List Stmt) : Prop :=
  ∀ depth, blockDepth depth program = some depth

theorem blockDepth_append (depth : Nat) (front back : List Stmt) :
    blockDepth depth (front ++ back) =
      (blockDepth depth front).bind fun middle => blockDepth middle back :=
  foldlM_append

theorem blockDepth_cons (depth : Nat) (s : Stmt) (rest : List Stmt) :
    blockDepth depth (s :: rest) = (s.depthAfter depth).bind fun after => blockDepth after rest :=
  foldlM_cons

namespace Balanced

theorem nil : Balanced [] :=
  fun _ => rfl

theorem append {front back : List Stmt} (frontBalanced : Balanced front)
    (backBalanced : Balanced back) : Balanced (front ++ back) := by
  intro depth
  rw [blockDepth_append, frontBalanced depth]
  exact backBalanced depth

theorem singleton {s : Stmt} (noMark : ∀ depth, s.depthAfter depth = some depth) :
    Balanced [s] := by
  intro depth
  rw [blockDepth_cons, noMark depth]
  rfl

theorem block {body : List Stmt}
    (inside : ∀ depth, blockDepth (depth + 1) body = some (depth + 1)) (condition : Expr)
    (tag tag' : Tag) : Balanced (.openBlock condition tag :: body ++ [.closeBlock tag']) := by
  intro depth
  rw [cons_append, blockDepth_cons]
  change blockDepth (depth + 1) (body ++ [.closeBlock tag']) = some depth
  rw [blockDepth_append, inside depth]
  rfl

end Balanced

/-- A balanced program of statements that satisfy `fits`. -/
structure Composed (fits : Stmt → Prop) (program : List Stmt) : Prop where
  balanced : Balanced program
  each : ∀ s ∈ program, fits s

namespace Composed

variable {fits : Stmt → Prop}

theorem nil : Composed fits [] :=
  ⟨Balanced.nil, forall_mem_nil fits⟩

theorem append {front back : List Stmt} (first : Composed fits front)
    (second : Composed fits back) : Composed fits (front ++ back) :=
  ⟨first.balanced.append second.balanced, forall_mem_append.mpr ⟨first.each, second.each⟩⟩

theorem singleton {s : Stmt} (fitting : fits s)
    (noMark : ∀ depth, s.depthAfter depth = some depth) : Composed fits [s] :=
  ⟨Balanced.singleton noMark, forall_mem_singleton.mpr fitting⟩

theorem block {body : List Stmt} {condition : Expr} {tag tag' : Tag}
    (opens : fits (.openBlock condition tag)) (closes : fits (.closeBlock tag'))
    (inside : ∀ depth, blockDepth (depth + 1) body = some (depth + 1)) (each : ∀ s ∈ body, fits s) :
    Composed fits (.openBlock condition tag :: body ++ [.closeBlock tag']) :=
  ⟨Balanced.block inside condition tag tag', forall_mem_append.mpr
    ⟨forall_mem_cons.mpr ⟨opens, each⟩, forall_mem_singleton.mpr closes⟩⟩

end Composed

namespace Stmt

/-- A statement as it is written at the top level. -/
inductive Parsed (f : Forms) : Stmt → Prop where
  | simple (s : Stmt) :
      Simple f s →
      Parsed f s
  | defineExpr (name : Ident) (value : Expr) (tag : Tag) :
      value.Written f →
      Parsed f (.defineExpr name value tag)
  | defineBlock (name : Ident) (body : List Stmt) (tag : Tag) :
      Composed (Simple f) body →
      Parsed f (.defineBlock name body tag)

def ParsedAt (f : Forms) (topLevel : Bool) (s : Stmt) : Prop :=
  if topLevel then Parsed f s else Simple f s

theorem Simple.parsedAt {f : Forms} {s : Stmt} (isSimple : s.Simple f) (topLevel : Bool) :
    s.ParsedAt f topLevel := by
  cases topLevel with
  | false => exact isSimple
  | true => exact .simple s isSimple

end Stmt

theorem blockDepth_lowerEach {lower : Stmt → Lowering (List Stmt)} {program lowered : List Stmt}
    (step : ∀ s ∈ program, ∀ part, lower s = .ok part →
      ∀ depth, blockDepth depth part = s.depthAfter depth)
    (ran : lowerEach lower program = .ok lowered) (depth : Nat) :
    blockDepth depth lowered = blockDepth depth program := by
  induction program generalizing lowered depth with
  | nil =>
    cases ran
    rfl
  | cons s rest ih =>
    obtain ⟨first, others, firstLowered, restLowered, rfl⟩ := lowerEach_cons_eq_ok_iff.mp ran
    have restStep : ∀ t ∈ rest, ∀ part, lower t = .ok part →
        ∀ depth, blockDepth depth part = t.depthAfter depth :=
      fun t member => step t (mem_cons_of_mem _ member)
    rw [blockDepth_append, blockDepth_cons, step s mem_cons_self first firstLowered]
    cases s.depthAfter depth with
    | none => rfl
    | some after => exact ih restStep restLowered after

theorem depthAfter_revise {target value : Expr → Lowering (Revised Expr)} {s t : Stmt}
    (ran : s.revise target value = .ok t) (depth : Nat) :
    blockDepth depth [t] = s.depthAfter depth := by
  cases s with
  | assign left right condition tag =>
    obtain ⟨_, _, ran⟩ := bind_eq_ok_iff.mp ran
    obtain ⟨_, _, ran⟩ := bind_eq_ok_iff.mp ran
    obtain ⟨_, _, rfl⟩ := bind_pure_eq_ok_iff.mp ran
    rfl
  | openBlock condition tag =>
    obtain ⟨_, _, rfl⟩ := bind_pure_eq_ok_iff.mp ran
    rfl
  | closeBlock tag =>
    cases ran
    cases depth <;> rfl
  | _ =>
    cases ran
    rfl

end AutomationScript
