import AutomationScript.Proofs.Document.Rules
import AutomationScript.Proofs.Lowering.Stated
import AutomationScript.Proofs.Lowering.MatchedResolutions

/-!
# The documents of two programs

Lowered programs that match are emitted as the same document.  If text can stand for expressions,
the second program has a document if the first has.
-/

namespace AutomationScript

namespace Emit

open Conditions (checked agree_same agree_apply agree_join)

variable {slack : Slack} {rigid operand : Bool} {e e' : Expr} {d d' : Document}

/-- Lowered text can be emitted in the place of anything, and lists are never emitted. -/
theorem agree_of_evaluates {α : Type} {f : Expr → Except Defect α} (lenient : slack.lenient)
    (evaluates : e.Evaluates e') (list : ∀ values fold loc, ∃ defect,
      f (.list values fold loc) = .error defect)
    (eval : ∀ text loc, ∃ a, f (.eval text loc) = .ok a) :
    slack.Agree slack.Equal (checked (f e)) (checked (f e')) := by
  rcases evaluates with isList | ⟨text, loc, rfl⟩
  · cases e with
    | list values fold loc =>
      obtain ⟨defect, stopped⟩ := list values fold loc
      exact .of_stopped lenient (congrArg checked stopped)
    | _ => cases isList
  · obtain ⟨a, ran⟩ := eval text loc
    exact .of_lenient lenient (congrArg checked ran) fun _ _ => .inl lenient

theorem agree_evalText (conditions : e.ConditionsMatch slack e') :
    slack.Agree slack.Equal (checked (e.evalText false)) (checked (e'.evalText false)) := by
  rcases conditions with matched | ⟨lenient, isList | isClause⟩
  · refine Conditions.agree_evalText (fun lenient _ _ evaluates wrap => ?_) matched false
    exact agree_of_evaluates (f := Expr.evalText wrap) lenient evaluates (fun _ _ _ => ⟨_, rfl⟩)
      fun _ _ => ⟨_, rfl⟩
  · cases e with
    | list values fold loc => exact .of_stopped lenient rfl
    | _ => cases isList
  · cases isClause <;> exact .of_lenient lenient rfl fun _ _ => .inl lenient

theorem agree_operand (matched : Expr.Matches slack Expr.Evaluates rigid operand e e') :
    slack.Agree slack.Equal (checked (Emit.operand e)) (checked (Emit.operand e')) := by
  cases matched with
  | swapped lenient evaluates =>
    exact agree_of_evaluates lenient evaluates (fun _ _ _ => ⟨_, rfl⟩) fun _ _ => ⟨_, rfl⟩
  | atom atoms =>
    cases atoms with
    | string _ _ | number _ _ | boolean _ _ => exact .inr rfl
    | eval texts _ => exact texts.imp id (congrArg fun text => (evalType, Constant.string text))
    | _ => exact .broken
  | subscript bases keys _ =>
    rw [Emit.operand, Emit.operand, keys.name?, bases.1]
    exact agree_same _
  | _ => exact .broken

theorem shape_misapplied {operator : Operator} (notNot : operator ≠ .not) {args : List Expr}
    (arity : args.length ≠ 2) (loc : Option Location) :
    shape (.compound operator args loc) =
      (comparison operator >>= fun _ => .error (.binaryArity operator)) := by
  rcases args with _ | ⟨left, _ | ⟨right, _ | ⟨third, more⟩⟩⟩
  case cons.cons.nil => exact absurd rfl arity
  all_goals
    cases operator with
    | not => exact absurd rfl notNot
    | _ => rfl

theorem agree_shape (conditions : e.ConditionsMatch slack e') :
    slack.Agree slack.Equal (checked (shape e)) (checked (shape e')) := by
  rcases conditions with matched | ⟨lenient, isList | isClause⟩
  · have single (plain : e.isCompound = false) (plain' : e'.isCompound = false) :
        slack.Agree slack.Equal (checked (shape e)) (checked (shape e')) := by
      rw [shape_of_not_isCompound plain, shape_of_not_isCompound plain']
      exact agree_apply (agree_operand matched) (.inr rfl)
    cases matched with
    | atom atoms => cases atoms <;> exact single rfl rfl
    | subscript _ _ _ => exact single rfl rfl
    | list _ _ _ _ => exact single rfl rfl
    | @compound _ _ operator args args' _ _ length parts _ =>
      have each := List.forall₂_iff_zip.mpr ⟨length, parts⟩
      by_cases negation : operator = .not
      · subst negation
        rcases each with _ | ⟨first, _ | ⟨_, _⟩⟩
        · exact .broken
        · exact agree_apply (agree_operand first) (.inr rfl)
        · exact .broken
      · by_cases arity : args.length = 2
        · obtain ⟨left, right, rfl⟩ := List.length_eq_two.mp arity
          rcases each with _ | ⟨first, _ | ⟨second, _ | _⟩⟩
          rw [shape_binary negation, shape_binary negation]
          cases comparison operator with
          | error defect => exact .broken
          | ok cmp => exact agree_join (agree_operand first) (agree_operand second) (.inr rfl)
        · rw [shape_misapplied negation arity, shape_misapplied negation (length ▸ arity)]
          exact agree_same _
  · cases e with
    | list values fold loc => exact .of_stopped lenient rfl
    | _ => cases isList
  · cases isClause <;> exact .of_lenient lenient rfl fun _ _ => .inl lenient

theorem exists_term?_of_operand {stated : Operand} (ran : Emit.operand e = .ok stated) :
    ∃ term, e.term? = some term := by
  cases e with
  | subscript base key loc =>
    cases key with
    | ident name keyLoc => exact ⟨_, rfl⟩
    | _ => cases ran
  | string value loc => exact ⟨_, rfl⟩
  | number value loc => exact ⟨_, rfl⟩
  | boolean value loc => exact ⟨_, rfl⟩
  | eval text loc => exact ⟨_, rfl⟩
  | _ => cases ran

theorem evalText_of_shape {shaped : Operand × String × Operand} (ran : shape e = .ok shaped) :
    ∃ text, e.evalText false = .ok text := by
  suffices hasTerm : ∃ term, e.term? = some term by
    obtain ⟨term, found⟩ := hasTerm
    exact ⟨term.text false, Expr.evalText_eq_ok_iff.mpr ⟨term, found, rfl⟩⟩
  by_cases plain : e.isCompound = false
  · rw [shape_of_not_isCompound plain] at ran
    obtain ⟨stated, operandRan, _⟩ := bind_eq_ok_iff.mp ran
    exact exists_term?_of_operand operandRan
  · cases e with
    | compound operator args loc =>
      by_cases negation : operator = .not
      · subst negation
        rcases args with _ | ⟨inner, _ | ⟨_, _⟩⟩
        · cases ran
        · obtain ⟨stated, operandRan, _⟩ := bind_eq_ok_iff.mp ran
          refine Expr.exists_term?_compound loc rfl (List.forall_mem_singleton.mpr ?_)
          exact exists_term?_of_operand operandRan
        · cases ran
      · obtain ⟨left, right, rfl⟩ := exists_pair_of_shape negation ran
        rw [shape_binary negation] at ran
        obtain ⟨_, _, ran⟩ := bind_eq_ok_iff.mp ran
        obtain ⟨_, leftRan, ran⟩ := bind_eq_ok_iff.mp ran
        obtain ⟨_, rightRan, _⟩ := bind_eq_ok_iff.mp ran
        refine Expr.exists_term?_compound loc (operator.arity_of_ne_not negation).symm ?_
        exact List.forall_mem_cons.mpr ⟨exists_term?_of_operand leftRan,
          List.forall_mem_singleton.mpr (exists_term?_of_operand rightRan)⟩
    | _ => exact absurd rfl plain

theorem constant_same (matched : Expr.Matches slack Expr.Evaluates rigid false e e') :
    constant e' = constant e := by
  cases matched with
  | atom atoms => cases atoms <;> rfl
  | _ => rfl

def constantRule (value condition : Expr) : Except Defect Rule := do
  let shaped ← shape condition
  let ret ← constant value
  return ⟨shaped.1.1, shaped.1.2, shaped.2.1, shaped.2.2.1, shaped.2.2.2, ret⟩

theorem agree_conditionalRule {condition condition' : Expr} (values : e.ValuesMatch slack e')
    (conditions : condition.ConditionsMatch slack condition') :
    slack.Agree slack.Equal (checked (conditionalRule e condition))
      (checked (conditionalRule e' condition')) := by
  have stated := agree_evalText conditions
  rcases values with matched | ⟨lenient, text, loc, rfl⟩
  · have plain (opened : conditionalRule e condition = constantRule e condition)
        (opened' : conditionalRule e' condition' = constantRule e' condition') :
        slack.Agree slack.Equal (checked (conditionalRule e condition))
          (checked (conditionalRule e' condition')) := by
      rw [opened, opened', constantRule, constantRule, constant_same matched]
      exact agree_join (agree_shape conditions) (agree_same _) (.inr rfl)
    cases matched with
    | atom atoms =>
      cases atoms with
      | eval texts _ =>
        exact agree_apply stated (texts.imp id (congrArg fun text holds =>
          Rule.mk evalType (.string holds) valueComparison evalType (.string text) .null))
      | _ => exact plain rfl rfl
    | _ => exact plain rfl rfl
  · -- the value is text now, so the condition has to have text
    cases ran : conditionalRule e condition with
    | error defect => exact .of_stopped lenient rfl
    | ok rule =>
      have hasText : ∃ text, condition.evalText false = .ok text := by
        cases e with
        | eval text loc =>
          obtain ⟨text, shown, _⟩ := bind_eq_ok_iff.mp ran
          exact ⟨text, shown⟩
        | _ =>
          obtain ⟨shaped, shapeRan, _⟩ := bind_eq_ok_iff.mp ran
          exact evalText_of_shape shapeRan
      obtain ⟨holds, shown⟩ := hasText
      rw [shown] at stated
      cases shown' : condition'.evalText false with
      | error defect =>
        rw [shown'] at stated
        exact stated.elim
      | ok holds' =>
        rw [conditionalRule, shown']
        exact .inl lenient

theorem agree_assignment (docs : slack.Equal d d') (name : String) {own own' : Option Expr}
    (values : e.ValuesMatch slack e') (conditions : Option.Rel (Expr.ConditionsMatch slack) own own') :
    slack.Agree slack.Equal (checked (assignment d name e own))
      (checked (assignment d' name e' own')) := by
  have sameRules : slack.Equal (d.addRule name) (d'.addRule name) :=
    docs.imp id (congrArg fun d => Document.addRule d name)
  cases conditions with
  | some conditions =>
    rw [assignment_conditional, assignment_conditional]
    exact agree_apply (agree_conditionalRule values conditions) sameRules
  | none =>
    rcases values with matched | ⟨lenient, text, loc, rfl⟩
    · have plain (opened : assignment d name e none = do return d.setValue name (← constant e))
          (opened' : assignment d' name e' none = do return d'.setValue name (← constant e')) :
          slack.Agree slack.Equal (checked (assignment d name e none))
            (checked (assignment d' name e' none)) := by
        rw [opened, opened', constant_same matched]
        exact agree_apply (agree_same _) (docs.imp id (congrArg fun d => Document.setValue d name))
      cases matched with
      | atom atoms =>
        cases atoms with
        | eval texts _ =>
          have rules := texts.imp id (congrArg fun text => Rule.mk "Boolean" (.boolean true)
            valueComparison evalType (.string text) .null)
          exact agree_apply (show slack.Agree slack.Equal (checked (.ok _)) (checked (.ok _)) from
            rules) sameRules
        | _ => exact plain rfl rfl
      | _ => exact plain rfl rfl
    · exact .of_lenient lenient rfl fun _ _ => .inl lenient

theorem count_same {arg arg' : TriggerArg} (args : arg.Matches slack arg') :
    count arg' = count arg := by
  have same := args.count
  rw [count, count]
  generalize arg.count = counted at same
  generalize arg'.count = counted' at same
  cases same with
  | none => rfl
  | some same =>
    cases same with
    | atom atoms => cases atoms <;> rfl
    | _ => rfl

theorem agree_statement (docs : slack.Equal d d') {defines : Stmt → Stmt → Prop} {s s' : Stmt}
    (matched : s.MatchesLowered slack defines s') :
    slack.Agree slack.Equal (checked (statement d s)) (checked (statement d' s')) := by
  cases matched with
  | assign targets values conditions _ =>
    rw [statement, statement, targets.name?]
    split
    · exact agree_assignment docs _ values conditions
    · exact .broken
  | trigger starts acts _ =>
    rcases acts with _ | ⟨act, _ | ⟨_, _⟩⟩
    · exact .broken
    · rw [statement, statement, trigger, trigger, count_same starts, count_same act, starts.kind.1,
        starts.id.1, act.kind.1, act.id.1]
      exact agree_join (agree_same _) (agree_same _) (docs.imp id fun same => by rw [same])
    · exact .broken
  | _ => exact .broken

theorem agree_statements {defines : Stmt → Stmt → Prop} {program program' : List Stmt}
    (matched : List.Forall₂ (Stmt.MatchesLowered slack defines) program program')
    (docs : slack.Equal d d') :
    slack.Agree slack.Equal (checked (statements d program)) (checked (statements d' program')) := by
  induction matched generalizing d d' with
  | nil => exact docs
  | cons first _ ih =>
    rw [statements, statements, Conditions.checked_bind, Conditions.checked_bind]
    exact (agree_statement docs first).bind fun _ _ docs _ _ => ih docs

end Emit

theorem agree_emit {slack : Slack} {defines : Stmt → Stmt → Prop} {program program' : List Stmt}
    (matched : List.Forall₂ (Stmt.MatchesLowered slack defines) program program') :
    slack.Agree slack.Equal (Conditions.checked (emit program))
      (Conditions.checked (emit program')) :=
  Emit.agree_statements matched (.inr rfl)

end AutomationScript
