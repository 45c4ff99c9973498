import AutomationScript.Program.Numbering
import AutomationScript.Proofs.Lowering.Faithful
import Mathlib.Data.List.Nodup

/-!
# Statements that go through a step untouched

A program can tell its nodes apart if each has a number and no two different ones share it.  Every
statement that a step gives is made from the one node with its number, and if it says the same as
that node then it is that node.
-/

namespace AutomationScript

open List

variable {registry : Registry}

mutual

/-- The statement and all statements inside it. -/
def Stmt.nodes : Stmt → List Stmt
  | .defineBlock name body tag => .defineBlock name body tag :: nodesOf body
  | s => [s]

/-- The statements of a program and all statements inside them. -/
def nodesOf : List Stmt → List Stmt
  | [] => []
  | s :: rest => s.nodes ++ nodesOf rest

end

theorem Stmt.self_mem_nodes (s : Stmt) : s ∈ s.nodes := by
  cases s <;> exact mem_cons_self

variable {program : List Stmt}

theorem mem_nodesOf {t : Stmt} : t ∈ nodesOf program ↔ ∃ s ∈ program, t ∈ s.nodes := by
  induction program with
  | nil => simp [nodesOf]
  | cons s rest ih => rw [nodesOf, mem_append, ih, exists_mem_cons_iff]

theorem mem_nodesOf_of_mem {s : Stmt} (member : s ∈ program) : s ∈ nodesOf program :=
  mem_nodesOf.mpr ⟨s, member, s.self_mem_nodes⟩

theorem mem_nodesOf_of_body {s t : Stmt} {body : List Stmt} {name : Ident} (member : s ∈ program)
    (defined : s.definition? = some (name, .block body)) (inBody : t ∈ body) :
    t ∈ nodesOf program := by
  cases s with
  | defineBlock _ statements tag =>
    cases defined
    refine mem_nodesOf.mpr ⟨_, member, ?_⟩
    rw [Stmt.nodes]
    exact mem_cons_of_mem _ (mem_nodesOf_of_mem inBody)
  | _ => cases defined

/-! ## Programs that tell their nodes apart -/

/-- The number of a statement, whether it is rebuilt or not. -/
def Stmt.number? (s : Stmt) : Option Nat :=
  s.mark.map Mark.number

/-- Every node has a number, and no two different ones have the same. -/
structure ToldApart (program : List Stmt) : Prop where
  marked : ∀ s ∈ nodesOf program, ∃ i, s.mark = some ⟨i, false⟩
  one : ∀ s ∈ nodesOf program, ∀ t ∈ nodesOf program, s.number? = t.number? → s = t

mutual

theorem Stmt.marks_numberFrom :
    (s : Stmt) → ∀ next, ∃ count, (s.numberFrom next).2 = next + count ∧
      (s.numberFrom next).1.nodes.map Stmt.mark =
        (List.range' next count).map fun i => some ⟨i, false⟩
  | .defineBlock name body tag, next => by
      obtain ⟨count, left, marks⟩ := marks_numberFrom body (next + 1)
      refine ⟨count + 1, ?_, ?_⟩
      · rw [Stmt.numberFrom, left]
        omega
      · rw [Stmt.numberFrom, Stmt.nodes, map_cons, marks, range'_succ]
        rfl
  | .assign _ _ _ _, _ | .openBlock _ _, _ | .closeBlock _, _ | .trigger _ _ _, _
  | .defineExpr _ _ _, _ | .use _ _, _ => ⟨1, rfl, rfl⟩

theorem marks_numberFrom :
    (program : List Stmt) → ∀ next, ∃ count, (numberFrom next program).2 = next + count ∧
      (nodesOf (numberFrom next program).1).map Stmt.mark =
        (List.range' next count).map fun i => some ⟨i, false⟩
  | [], _ => ⟨0, rfl, rfl⟩
  | s :: rest, next => by
      obtain ⟨ofFirst, firstLeft, firstMarks⟩ := s.marks_numberFrom next
      obtain ⟨ofOthers, othersLeft, othersMarks⟩ := marks_numberFrom rest (next + ofFirst)
      refine ⟨ofFirst + ofOthers, ?_, ?_⟩
      · show (numberFrom (s.numberFrom next).2 rest).2 = _
        rw [firstLeft, othersLeft, Nat.add_assoc]
      · show (nodesOf ((s.numberFrom next).1 :: (numberFrom (s.numberFrom next).2 rest).1)).map _ =
          _
        rw [nodesOf, firstLeft, map_append, firstMarks, othersMarks, ← map_append,
          range'_append_1]

end

theorem toldApart_numberStatements (program : List Stmt) :
    ToldApart (numberStatements program) := by
  obtain ⟨count, _, marks⟩ := marks_numberFrom program 0
  constructor
  · intro s member
    have isMark : s.mark ∈ (nodesOf (numberStatements program)).map Stmt.mark :=
      mem_map_of_mem member
    rw [numberStatements, marks] at isMark
    obtain ⟨i, _, isMark⟩ := mem_map.mp isMark
    exact ⟨i, isMark.symm⟩
  · have numbers : (nodesOf (numberStatements program)).map Stmt.number? =
        (List.range' 0 count).map some := by
      have ofMarks := congrArg (List.map (Option.map Mark.number)) marks
      rw [map_map, map_map] at ofMarks
      exact ofMarks
    have distinct : ((nodesOf (numberStatements program)).map Stmt.number?).Nodup := by
      rw [numbers]
      exact List.Nodup.map (fun _ _ same => Option.some.inj same) nodup_range'
    exact fun s sMember t tMember => inj_on_of_nodup_map distinct sMember tMember

/-! ## What a step makes of a node -/

variable {lowered : List Stmt}

theorem lowerEach_stems {lower : Stmt → Lowering (List Stmt)}
    (stems : ∀ {number s part}, lower s = .ok part → ∀ t ∈ part, s.Stems number t)
    (ran : lowerEach lower program = .ok lowered) :
    ∀ t ∈ lowered, ∃ s ∈ nodesOf program, ∀ number, s.Stems number t :=
  forall_of_lowerEach
    (fun isNode stepRan t member => ⟨_, isNode, fun _ => stems stepRan t member⟩)
    (fun _ member => mem_nodesOf_of_mem member) ran

theorem revise_stems {target value : Expr → Lowering (Revised Expr)}
    (targetFaithful : ∀ number e, Faithful (Expr.outline number) e (target e))
    (valueFaithful : ∀ number e, Faithful (Expr.outline number) e (value e))
    (ran : lowerEach (fun s => do return [← s.revise target value]) program = .ok lowered) :
    ∀ t ∈ lowered, ∃ s ∈ nodesOf program, ∀ number, s.Stems number t := by
  refine lowerEach_stems (fun stepRan => ?_) ran
  obtain ⟨_, revised, rfl⟩ := bind_pure_eq_ok_iff.mp stepRan
  exact forall_mem_singleton.mpr
    (Stmt.stems_revise (targetFaithful _) (valueFaithful _) revised)

theorem Stage.run_stems (noFamily : registry.family? settingCurrent = none) {stage : Stage}
    (ran : stage.run registry program = .ok lowered) :
    ∀ t ∈ lowered, ∃ s ∈ nodesOf program, ∀ number, s.Stems number t := by
  cases stage with
  | definitions =>
    refine Definition.forall_lower (fun {_ _ _ s t} isNode revised => ?_)
      (fun _ => mem_nodesOf_of_mem)
      (fun _ member _ _ defined _ => mem_nodesOf_of_body member defined) ran
    exact ⟨s, isNode, fun _ =>
      Stmt.stems_revise faithful_unrevised (Definition.faithful_expandExpr _ _ _) revised⟩
  | wildcards =>
    exact revise_stems (fun _ => Wildcard.faithful_expand) (fun _ => Wildcard.faithful_expand) ran
  | lists => exact lowerEach_stems Lists.stems_lowerStmt ran
  | placeholders => exact lowerEach_stems Placeholder.stems_lowerStmt ran
  | aliases =>
    exact revise_stems (fun _ => faithful_unrevised) (fun _ => Alias.faithful_resolve registry) ran
  | families =>
    exact revise_stems (fun _ => Families.faithful_resolveTarget)
      (fun _ => Families.faithful_resolve noFamily) ran
  | blocks =>
    intro t member
    obtain ⟨s, sMember, _, conditions, rfl, _⟩ := Blocks.exists_of_mem_flatten ran member
    exact ⟨s, mem_nodesOf_of_mem sMember, fun _ => Blocks.stems_governed conditions s⟩
  | conditions => exact lowerEach_stems Conditions.stems_lowerStmt ran
  | types =>
    obtain ⟨_, _, rfl⟩ := bind_pure_eq_ok_iff.mp ran
    exact fun t member => ⟨t, mem_nodesOf_of_mem member, fun _ => .same⟩
  | chains => exact lowerEach_stems Chains.stems_lowerStmt ran

/-- What stems from a node has its number, and is the node exactly if it says the same. -/
theorem Stmt.Stems.outline_eq_iff {number : Number → Number} {s t : Stmt} {i : Nat}
    (stems : s.Stems number t) (marked : s.mark = some ⟨i, false⟩) :
    t.number? = s.number? ∧ (t.isSame s = true → t = s) ∧
      (t.outline number = s.outline number ↔ t.isSame s = true) := by
  cases stems with
  | same =>
    have isSame : s.isSame s = true := by
      rw [isSame, marked]
      simp
    exact ⟨rfl, fun _ => rfl, fun _ => isSame, fun _ => rfl⟩
  | rebuilt tagged differs =>
    have mark : t.mark = some ⟨i, true⟩ := by
      rw [Stmt.mark, tagged, Tag.rebuilt]
      rw [Stmt.mark] at marked
      rw [marked]
      rfl
    have notSame : t.isSame s = false := by
      rw [isSame, mark, marked]
      rfl
    rw [notSame]
    refine ⟨?_, fun impossible => absurd impossible Bool.false_ne_true,
      fun same => absurd same differs, fun impossible => absurd impossible Bool.false_ne_true⟩
    rw [number?, number?, mark, marked]
    rfl

/-- Every program can be numbered so that its nodes are told apart.  However it is numbered, a
statement that a step gives has the number of just one node; it is this node exactly if it says the
same, whichever numbers count as the same. -/
theorem stage_run_untouched
    (noFamily : registry.family? settingCurrent = none) (stage : Stage) (program : List Stmt) :
    ToldApart (numberStatements program) ∧
      ∀ nodes lowered, ToldApart nodes → stage.run registry nodes = .ok lowered → ∀ t ∈ lowered,
        ∃ s ∈ nodesOf nodes,
          (∀ node ∈ nodesOf nodes, node.number? = t.number? ↔ node = s) ∧
          (t.isSame s = true → t = s) ∧
          ∀ number, t.outline number = s.outline number ↔ t.isSame s = true := by
  refine ⟨toldApart_numberStatements program, fun nodes lowered toldApart ran t member => ?_⟩
  obtain ⟨s, isNode, stems⟩ := Stage.run_stems noFamily ran t member
  obtain ⟨i, marked⟩ := toldApart.marked s isNode
  obtain ⟨sameNumber, isNodeOf, _⟩ := (stems id).outline_eq_iff marked
  refine ⟨s, isNode, fun node nodeMember => ⟨fun same => ?_, fun same => ?_⟩, isNodeOf,
    fun number => ((stems number).outline_eq_iff marked).2.2⟩
  · exact toldApart.one node nodeMember s isNode (same.trans sameNumber)
  · rw [same, sameNumber]

/-- Two statements, used twice.  The second of them refers to another definition. -/
def usedTwice : List Stmt :=
  let word (name : String) : Ident := ⟨name, none⟩
  let name (text : String) : Expr := .ident (word text) none
  [.defineBlock (word "Setup")
      [.assign (name "x") (.boolean true none) none default,
        .assign (name "y") (name "Low") none default] default,
    .defineExpr (word "Low") (.boolean false none) default,
    .use (word "Setup") default,
    .use (word "Setup") default,
    .assign (name "z") (.boolean true none) none default]

theorem stage_run_untouched_usedTwice :
    Registry.empty.family? settingCurrent = none ∧ ToldApart (numberStatements usedTwice) ∧
      ∃ lowered, Stage.definitions.run .empty (numberStatements usedTwice) = .ok lowered ∧
        lowered.map Stmt.mark = [some ⟨1, false⟩, some ⟨2, true⟩, some ⟨1, false⟩, some ⟨2, true⟩,
          some ⟨6, false⟩] ∧
        ∀ t ∈ lowered, ∃ s ∈ nodesOf (numberStatements usedTwice),
          (∀ node ∈ nodesOf (numberStatements usedTwice),
            node.number? = t.number? ↔ node = s) ∧
          (t.isSame s = true → t = s) ∧
          ∀ number, t.outline number = s.outline number ↔ t.isSame s = true := by
  have noFamily : Registry.empty.family? settingCurrent = none := rfl
  obtain ⟨toldApart, untouched⟩ := stage_run_untouched noFamily .definitions usedTwice
  have marks : (Stage.definitions.run .empty (numberStatements usedTwice)).toOption.map
      (List.map Stmt.mark) = some [some ⟨1, false⟩, some ⟨2, true⟩, some ⟨1, false⟩,
        some ⟨2, true⟩, some ⟨6, false⟩] := by
    decide +kernel
  obtain ⟨lowered, ran, isMarks⟩ := exists_ok_of_toOption_map marks
  exact ⟨noFamily, toldApart, lowered, ran, isMarks, untouched _ lowered toldApart ran⟩

end AutomationScript
