import AutomationScript.Proofs.Document.ConditionalRules
import AutomationScript.Registry.Builtin

/-!
# What rules for constants mean

`Rule.holds?` reads a rule in a runtime.  The rule of an assignment holds exactly when its condition
does, if numbers and references can be told apart in the document (`constantRule_holds`).
-/

namespace AutomationScript

/-- The value of a constant; null has none. -/
def Constant.value? (r : Runtime) : Constant → Option Value
  | .null => none
  | .string value => some (.string value)
  | .boolean value => some (.boolean value)
  | .integer value => some (r.numeral (integerText value))
  | .decimal negative significand exponent =>
    some (r.numeral (Number.plainText (.finite negative significand exponent)))

/-- The value of an operand of a rule: of a string, of text that is evaluated, of what is read
under a key, or of another constant. -/
def Emit.Operand.value? (r : Runtime) : Emit.Operand → Option Value
  | (type, .string text) =>
    if type = "String" then
      some (.string text)
    else if type = Emit.evalType then
      some (r.evaluate text)
    else
      some (r.read type text)
  | (_, constant) => constant.value? r

def Operator.ofComparison? (cmp : String) : Option Operator :=
  if cmp = "AND" then
    some .and
  else if cmp = "OR" then
    some .or
  else
    (Operator.ofSymbol? cmp).filter Operator.isComparison

/-- Whether the comparison of a rule holds, if its operands have values that can be compared. -/
def Rule.holds? (r : Runtime) (rule : Rule) : Option Bool := do
  let operator ← Operator.ofComparison? rule.cmp
  let left ← Emit.Operand.value? r (rule.type1, rule.arg1)
  let right ← Emit.Operand.value? r (rule.type2, rule.arg2)
  match ← r.operate? operator left right with
  | .boolean result => some result
  | _ => none

namespace Expr

/-- The operands of a condition's root, or the condition itself if its root is no operator. -/
def rootOperands : Expr → List Expr
  | .compound _ args _ => args
  | e => [e]

/-- Whether a document can tell an operand from others: it is no number without a numeral, and no
reference to a category that has the name of the type of strings. -/
def isStatable : Expr → Bool
  | .number (.finite _ _ _) _ => true
  | .number _ _ => false
  | .subscript base _ _ => base.name != "String"
  | _ => true

end Expr

/-- The runtime gives the text of every operand of the root that has operators itself the value of
that operand. -/
def Runtime.Evaluates (r : Runtime) (condition : Expr) : Prop :=
  ∀ e ∈ condition.rootOperands, e.isCompound = true →
    ∀ text, e.evalText false = .ok text → e.value? r = some (r.evaluate text)

theorem ofNumber_finite (negative : Bool) (significand : Nat) (exponent : Int) :
    Constant.ofNumber (.finite negative significand exponent) =
      match (Number.finite negative significand exponent).toSmallInt? with
      | some n => .integer n
      | none => .decimal negative significand exponent :=
  rfl

/-- A finite number is written into a document without loss. -/
theorem value?_ofNumber {x : Number} {loc : Option Location}
    (statable : (Expr.number x loc).isStatable = true) (r : Runtime) (type : String) :
    (Constant.ofNumber x).value? r = (Expr.number x loc).value? r ∧
      Emit.Operand.value? r (type, .ofNumber x) = (Expr.number x loc).value? r := by
  have written : (Expr.number x loc).value? r = some (r.numeral x.text) := rfl
  rw [written]
  cases x with
  | finite negative significand exponent =>
    rw [ofNumber_finite, Number.text]
    cases (Number.finite negative significand exponent).toSmallInt? with
    | some n => exact ⟨rfl, rfl⟩
    | none => exact ⟨rfl, rfl⟩
  | infinite negative => cases statable
  | notANumber => cases statable

theorem value?_constant {e : Expr} {constant : Constant} (stated : Emit.constant e = .ok constant)
    (statable : e.isStatable = true) (r : Runtime) : constant.value? r = e.value? r := by
  cases e with
  | string value loc =>
    cases stated
    rfl
  | boolean value loc =>
    cases stated
    rfl
  | number x loc =>
    cases stated
    exact (value?_ofNumber statable r "Number").1
  | _ => cases stated

variable {r : Runtime} {operand : Emit.Operand}

theorem value?_statedOperand {e : Expr} {v : Value} (stated : Emit.operand e = .ok operand)
    (statable : e.isStatable = true) (notInline : e.inlineEval? = none)
    (valued : e.value? r = some v) : operand.value? r = some v := by
  cases e with
  | subscript base key loc =>
    cases key with
    | ident word wordLoc =>
      cases stated
      have notEval : base.name ≠ evalName := by
        intro isEval
        rw [Expr.inlineEval?, if_pos isEval] at notInline
        cases notInline
      have notString : base.name ≠ "String" := by
        simpa [Expr.isStatable] using statable
      have read : (Expr.subscript base (.ident word wordLoc) loc).value? r =
          some (r.read base.name word.name) := by
        rw [Expr.value?, Expr.term?, if_neg notEval]
        rfl
      rw [read] at valued
      have notEvalType : base.name ≠ Emit.evalType := notEval
      rw [Emit.Operand.value?, if_neg notString, if_neg notEvalType, valued]
    | _ => cases stated
  | number x loc =>
    cases stated
    rw [← valued]
    exact (value?_ofNumber statable r "Number").2
  | boolean value loc =>
    cases stated
    exact valued
  | string value loc =>
    cases stated
    exact valued
  | eval text loc =>
    cases stated
    exact valued
  | _ => cases stated

theorem value?_loweredOperand {e : Expr} {lowered : Revised Expr} {v : Value}
    (ran : Conditions.lowerOperand e = .ok lowered)
    (stated : Emit.operand lowered.value = .ok operand) (statable : e.isStatable = true)
    (evaluates : e.isCompound = true →
      ∀ text, e.evalText false = .ok text → e.value? r = some (r.evaluate text))
    (valued : e.value? r = some v) : operand.value? r = some v := by
  rcases Conditions.lowerOperand_cases ran with
    ⟨text, compound, spelled, rfl⟩ | ⟨text, inline, rfl⟩ | ⟨_, notInline, rfl⟩
  · cases stated
    rw [evaluates compound text spelled] at valued
    exact valued
  · cases stated
    rw [Expr.value?, Expr.term?_of_inlineEval? inline] at valued
    exact valued
  · exact value?_statedOperand stated statable notInline valued

theorem ofComparison?_comparison {operator : Operator} {cmp : String}
    (stated : Emit.comparison operator = .ok cmp) : Operator.ofComparison? cmp = some operator := by
  cases operator <;> cases stated <;> rfl

/-- A rule says what its operator makes of the values of its operands. -/
theorem Rule.holds?_of_operate? {rule : Rule} {operator : Operator} {v w : Value} {b : Bool}
    (compared : Operator.ofComparison? rule.cmp = some operator)
    (left : Emit.Operand.value? r (rule.type1, rule.arg1) = some v)
    (right : Emit.Operand.value? r (rule.type2, rule.arg2) = some w)
    (applied : r.operate? operator v w = some (.boolean b)) : rule.holds? r = some b := by
  simp [holds?, compared, left, right, applied]

theorem Runtime.operate?_eq_boolean (r : Runtime) (tested expected : Bool) :
    r.operate? .eq (.boolean tested) (.boolean expected) =
      some (.boolean (tested == expected)) := by
  rw [← r.compare_boolean]
  rfl

/-- The comparison that states a condition holds when the condition does. -/
theorem holds?_shape {condition : Expr} {lowered : Revised Expr} {left right : Emit.Operand}
    {cmp : String} {b : Bool} (ran : Conditions.lowerCondition condition = .ok lowered)
    (shaped : Emit.shape lowered.value = .ok (left, cmp, right))
    (statable : ∀ e ∈ condition.rootOperands, e.isStatable = true)
    (evaluates : r.Evaluates condition) (valued : condition.value? r = some (.boolean b))
    (ret : Constant) : Rule.holds? r ⟨left.1, left.2, cmp, right.1, right.2, ret⟩ = some b := by
  rcases Conditions.lowerCondition_cases ran with
    ⟨operator, args, loc, revised, rfl, argsRan, rfl⟩ | ⟨single, operandRan⟩
  · rcases Expr.value?_compound_cases valued with
      ⟨operand, inner, rfl, rfl, operandValued, negated⟩ |
      ⟨first, second, firstValue, secondValue, notNot, rfl, firstValued, secondValued, applied⟩
    · obtain ⟨loweredOperand, others, operandRan, othersRan, rfl⟩ :=
        reviseList_cons_eq_ok_iff.mp argsRan
      cases othersRan
      obtain ⟨stated, operandStated, shaped⟩ := bind_pure_eq_ok_iff.mp shaped
      cases shaped
      have innerStated := value?_loweredOperand operandRan operandStated
        (statable operand List.mem_cons_self) (evaluates operand List.mem_cons_self) operandValued
      cases inner with
      | boolean tested =>
        cases negated
        refine Rule.holds?_of_operate? rfl innerStated rfl ?_
        rw [r.operate?_eq_boolean, beq_false]
      | _ => cases negated
    · obtain ⟨loweredFirst, others, firstRan, othersRan, rfl⟩ :=
        reviseList_cons_eq_ok_iff.mp argsRan
      obtain ⟨loweredSecond, none, secondRan, noneRan, rfl⟩ :=
        reviseList_cons_eq_ok_iff.mp othersRan
      cases noneRan
      have firstMember : first ∈ (Expr.compound operator [first, second] loc).rootOperands :=
        List.mem_cons_self
      have secondMember : second ∈ (Expr.compound operator [first, second] loc).rootOperands :=
        List.mem_cons_of_mem _ List.mem_cons_self
      change Emit.shape (.compound operator [loweredFirst.value, loweredSecond.value] loc) =
        .ok (left, cmp, right) at shaped
      rw [Emit.shape_binary notNot] at shaped
      obtain ⟨stated, compared, shaped⟩ := bind_eq_ok_iff.mp shaped
      obtain ⟨firstStated, firstOperand, shaped⟩ := bind_eq_ok_iff.mp shaped
      obtain ⟨secondStated, secondOperand, shaped⟩ := bind_pure_eq_ok_iff.mp shaped
      cases shaped
      exact Rule.holds?_of_operate? (ofComparison?_comparison compared)
        (value?_loweredOperand firstRan firstOperand (statable first firstMember)
          (evaluates first firstMember) firstValued)
        (value?_loweredOperand secondRan secondOperand (statable second secondMember)
          (evaluates second secondMember) secondValued)
        applied
  · have member : condition ∈ condition.rootOperands := by
      cases condition with
      | compound operator args loc => cases single
      | _ => exact List.mem_cons_self
    have loweredSingle : lowered.value.isCompound = false := by
      rcases Conditions.lowerOperand_cases operandRan with
        ⟨text, _, _, rfl⟩ | ⟨text, _, rfl⟩ | ⟨_, _, rfl⟩
      · rfl
      · rfl
      · exact single
    rw [Emit.shape_of_not_isCompound loweredSingle] at shaped
    obtain ⟨stated, operandStated, shaped⟩ := bind_pure_eq_ok_iff.mp shaped
    cases shaped
    refine Rule.holds?_of_operate? rfl
      (value?_loweredOperand operandRan operandStated (statable condition member)
        (evaluates condition member) valued) rfl ?_
    rw [r.operate?_eq_boolean, beq_true]

/-- The rule of an assignment of a constant under a condition is found at the assignment's place
among the rules of its setting.  In every runtime it gives the constant, and it holds exactly when
the condition does. -/
theorem constantRule_holds
    {registry : Registry} {source : String} {document : Document} {before after : List Stmt}
    {target value condition : Expr} {tag : Tag}
    (compiled : compile registry source = .ok document)
    (flattened : flatProgram registry source =
      .ok (before ++ .assign target value (some condition) tag :: after))
    (constant : value.isConstant = true)
    (valueStatable : value.isStatable = true)
    (statable : ∀ e ∈ condition.rootOperands, e.isStatable = true) :
    ∃ name rule, target.name? = some name ∧ document.ruleAfter? before name = some rule ∧
      ∀ r : Runtime, rule.ret.value? r = value.value? r ∧
        (r.Evaluates condition →
          ∀ b, condition.value? r = some (.boolean b) → rule.holds? r = some b) := by
  obtain ⟨name, rule, loweredValue, loweredCondition, named, found, valueRan, conditionRan,
    ruled⟩ := ruleAfter?_of_compile compiled flattened
  have valueKept : loweredValue = .kept value := by
    rcases Conditions.lowerValue_cases valueRan with ⟨kept, _⟩ | ⟨text, computed, _⟩
    · exact kept
    · rw [constant] at computed
      cases computed
  subst valueKept
  obtain ⟨left, cmp, right, ret, shaped, valueStated, rfl⟩ :=
    Emit.conditionalRule_of_isConstant constant ruled
  refine ⟨name, _, named, found, fun r => ⟨value?_constant valueStated valueStatable r, ?_⟩⟩
  intro evaluates b valued
  exact holds?_shape conditionRan shaped statable evaluates valued ret

/-- A rule under a block and a negated operand, in a runtime where it holds. -/
theorem constantRule_holds_underBlock :
    ∃ document before target value condition tag after name rule r,
      compile Registry.builtin
        "if Starving then\nautoJobs = ON if not (Citizens > 5 and MadToggle)\nend" = .ok document ∧
      flatProgram Registry.builtin
        "if Starving then\nautoJobs = ON if not (Citizens > 5 and MadToggle)\nend" =
        .ok (before ++ .assign target value (some condition) tag :: after) ∧
      target.name? = some name ∧ document.ruleAfter? before name = some rule ∧
      Runtime.Evaluates r condition ∧ condition.value? r = some (.boolean true) ∧
      rule.holds? r = some true ∧ rule.ret.value? r = some (.boolean true) := by
  let r : Runtime :=
    { Runtime.ofReading fun _ key => .boolean (key == "strv") with
      evaluate := fun _ => .boolean true }
  have checked :
      ∃ c ∈ conditionalRules Registry.builtin
          "if Starving then\nautoJobs = ON if not (Citizens > 5 and MadToggle)\nend",
        c.value.isConstant = true ∧ c.value.isStatable = true ∧
          (∀ e ∈ c.condition.rootOperands, e.isStatable = true) ∧
          (∀ e ∈ c.condition.rootOperands, e.isCompound = true →
            e.value? r = some (.boolean true)) ∧
          c.value.value? r = some (.boolean true) ∧
          c.condition.value? r = some (.boolean true) := by
    decide +kernel
  obtain ⟨c, member, constant, valueStatable, statable, operands, valueValued, valued⟩ := checked
  obtain ⟨document, before, target, _, tag, after, compiled, flattened, _, _⟩ :=
    mem_conditionalRules_iff.mp member
  obtain ⟨name, rule, named, found, meaning⟩ :=
    constantRule_holds compiled flattened constant valueStatable statable
  have evaluates : r.Evaluates c.condition := fun e member compound _ _ =>
    operands e member compound
  exact ⟨document, before, target, c.value, c.condition, tag, after, name, rule, r, compiled,
    flattened, named, found, evaluates, valued, (meaning r).2 evaluates true valued,
    (meaning r).1.trans valueValued⟩

/-- The value is a constant, and no operand of the condition's root has operators itself. -/
def ConditionalRule.isFixed (c : ConditionalRule) : Bool :=
  c.value.isConstant && c.condition.rootOperands.all fun e => !e.isCompound

/-- Numbers too large for a numeral are all alike in a rule, and a category named after the type of
strings passes for strings. -/
theorem constantRules_mistake_conditions :
    (∃ c ∈ conditionalRules Registry.builtin
        ("autoJobs = ON if Citizens == -" ++ String.ofList (List.replicate 309 '9')),
      ∃ c' ∈ conditionalRules Registry.builtin
        ("autoJobs = ON if Citizens == " ++ String.ofList (List.replicate 309 '9')),
      c.isFixed ∧ c'.isFixed ∧ c.Mistaken (.ofReading fun _ _ => .string "inf") c') ∧
    ∃ c ∈ conditionalRules
        { Registry.empty with
          settings := .ofList [("autoJobs", .boolean)]
          categories := .ofList [("String", ⟨some .string, none, "text", none⟩)] }
        "autoJobs = ON if \"x\" == \"y\"",
      ∃ c' ∈ conditionalRules
        { Registry.empty with
          settings := .ofList [("autoJobs", .boolean)]
          categories := .ofList [("String", ⟨some .string, none, "text", none⟩)] }
        "autoJobs = ON if String[x] == \"y\"",
      c.isFixed ∧ c'.isFixed ∧ c.Mistaken (.ofReading fun _ _ => .string "y") c' := by
  simp only [conditionalRules_eq_ofChars, String.toList_append, String.toList_ofList]
  decide +kernel

end AutomationScript
