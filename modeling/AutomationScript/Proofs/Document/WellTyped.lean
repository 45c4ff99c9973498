import AutomationScript.Proofs.Document.ConditionalRules
import AutomationScript.Proofs.Document.Contents

/-!
# Documents are well typed

The type checker sees conditions after their nested operands have become text.  Still, in the
document of a script every name is declared, every constant has the type of its setting, and the
operands of every comparison fit it (`document_wellTyped`).
-/

namespace AutomationScript

variable {name : String} {value : Expr}

/-- The literal has the type, and the constant is its form in a document.  A number that is not
finite has no form but null. -/
inductive Constant.Typed : ValueType → Expr → Constant → Prop where
  | string (value : String) (loc : Option Location) :
      Typed .string (.string value loc) (.string value)
  | boolean (value : Bool) (loc : Option Location) :
      Typed .boolean (.boolean value loc) (.boolean value)
  | integer (value : Number) (n : Int) (loc : Option Location) (small : value.toSmallInt? = some n) :
      Typed .number (.number value loc) (.integer n)
  | decimal (negative : Bool) (significand : Nat) (exponent : Int) (loc : Option Location) :
      Typed .number (.number (.finite negative significand exponent) loc)
        (.decimal negative significand exponent)
  | infinite (negative : Bool) (loc : Option Location) :
      Typed .number (.number (.infinite negative) loc) .null
  | notANumber (loc : Option Location) :
      Typed .number (.number .notANumber loc) .null

/-- The type of `base[key]`: text in braces and the keys of a category without a type have none
that is known, and everything else has the type that is declared for it. -/
def Registry.referenceType? (registry : Registry) (base key : String) : Option Ty :=
  if base = evalName then
    some .unknown
  else if isSettingBase base then
    (registry.settingType? key).map .known
  else if base = otherName then
    ((registry.otherTarget? key).or (registry.other? key)).map fun other => .known other.type
  else
    (registry.category? base).map fun category => (category.type.map .known).getD .unknown

/-- The type of an operand: the literal's own, or that of the reference. -/
def Expr.operandType? (registry : Registry) : Expr → Option Ty
  | .string _ _ => some (.known .string)
  | .number _ _ => some (.known .number)
  | .boolean _ _ => some (.known .boolean)
  | .eval _ _ => some .unknown
  | .subscript base key _ => key.name?.bind (registry.referenceType? base.name)
  | _ => none

/-- What a condition compares.  A negated condition is compared with false, and one without an
operator with true. -/
def Expr.comparands? : Expr → Option (Expr × Expr)
  | .compound .not [inner] loc => some (inner, .boolean false loc)
  | .compound .not _ _ => none
  | .compound _ [left, right] _ => some (left, right)
  | .compound _ _ _ => none
  | e => some (e, .boolean true e.loc)

/-- Operands of these types can be compared in this way. -/
def Ty.Comparable (cmp : String) (left right : Ty) : Prop :=
  if cmp = "AND" ∨ cmp = "OR" then
    (left = .known .boolean ∨ left = .unknown) ∧ (right = .known .boolean ∨ right = .unknown)
  else if cmp = "<" ∨ cmp = "<=" ∨ cmp = ">" ∨ cmp = ">=" then
    (left = .known .number ∨ left = .unknown) ∧ (right = .known .number ∨ right = .unknown)
  else
    (cmp = "==" ∨ cmp = "!=") ∧ (left = right ∨ left = .unknown ∨ right = .unknown)

/-- The rule gives a constant of the type, and it compares the operands of the condition, whose
types fit the comparison. -/
def Rule.Typed (registry : Registry) (type : ValueType) (value condition : Expr) (rule : Rule) :
    Prop :=
  Constant.Typed type value rule.ret ∧
    ∃ left right leftType rightType, condition.comparands? = some (left, right) ∧
      Emit.operand left = .ok (rule.type1, rule.arg1) ∧
      Emit.operand right = .ok (rule.type2, rule.arg2) ∧
      left.operandType? registry = some leftType ∧ right.operandType? registry = some rightType ∧
      Ty.Comparable rule.cmp leftType rightType

/-- The document of a lowered program is well typed. -/
structure Document.WellTyped (registry : Registry) (program : List Stmt) (d : Document) :
    Prop where
  /-- The value of a setting is that of an assignment without a condition. -/
  settings : ∀ name constant, d.settings.get? name = some constant →
    ∃ type target value tag, registry.settingType? name = some type ∧
      Stmt.assign target value none tag ∈ program ∧ target.name? = some name ∧
      Constant.Typed type value constant
  overrides : ∀ name rules, d.overrides.get? name = some rules →
    ∃ type, registry.settingType? name = some type
  /-- The rule at each place is that of the assignment at that place. -/
  rules : ∀ name rules i rule, d.overrides.get? name = some rules → rules[i]? = some rule →
    ∃ type before target value condition tag after,
      registry.settingType? name = some type ∧
      program = before ++ .assign target value condition tag :: after ∧
      target.name? = some name ∧ before.countP (Stmt.overrides name) = i ∧
      ((value.isConstant = false ∧ rule.cmp = Emit.valueComparison) ∨
        value.isConstant = true ∧ ∃ own ∈ condition, rule.Typed registry type value own)

/-! ## Operands -/

namespace Types

variable {registry : Registry}
variable {left right : Expr}

variable {type : Ty}

theorem referenceType?_of_subscriptType {base : Ident} {key : Expr}
    (named : key.name? = some name) (typed : subscriptType registry base key = .ok type) :
    registry.referenceType? base.name name = some type := by
  unfold subscriptType at typed
  rw [Registry.referenceType?]
  by_cases isEval : base.name = evalName
  · rw [if_pos isEval] at typed ⊢
    exact congrArg some (Except.ok.inj typed)
  rw [if_neg isEval] at typed ⊢
  simp only [named] at typed
  by_cases ofSettings : isSettingBase base.name = true
  · rw [if_pos ofSettings] at typed ⊢
    cases declared : registry.settingType? name with
    | none =>
      rw [declared] at typed
      cases typed
    | some found =>
      rw [declared] at typed
      cases typed
      rfl
  rw [if_neg ofSettings] at typed ⊢
  cases categoryFound : registry.category? base.name with
  | none =>
    rw [categoryFound] at typed
    cases typed
  | some category =>
    simp only [categoryFound] at typed
    by_cases isOther : base.name = otherName
    · rw [if_pos isOther] at typed ⊢
      cases entry : (registry.otherTarget? name).or (registry.other? name) with
      | none =>
        rw [entry] at typed
        cases typed
      | some other =>
        rw [entry] at typed
        cases typed
        rfl
    · rw [if_neg isOther] at typed ⊢
      split at typed
      · cases typed
        rfl
      · cases typed

/-- An operand that the checker accepts and a document can state has the type that it is checked
with. -/
theorem operandType?_of_typeOf {e : Expr} {operand : Emit.Operand}
    (typed : typeOf registry e = .ok type) (stated : Emit.operand e = .ok operand) :
    e.operandType? registry = some type := by
  cases e with
  | subscript base key loc =>
    rw [Emit.operand] at stated
    cases named : key.name? with
    | none =>
      rw [named] at stated
      cases stated
    | some name =>
      rw [typeOf] at typed
      rw [Expr.operandType?, named]
      exact referenceType?_of_subscriptType named typed
  | string value loc =>
    cases typed
    rfl
  | number value loc =>
    cases typed
    rfl
  | boolean value loc =>
    cases typed
    rfl
  | eval text loc =>
    cases typed
    rfl
  | _ => cases stated

theorem eq_or_unknown_of_fits {actual : Ty} {expected : ValueType}
    (fits : actual.fits (.known expected) = true) :
    actual = .known expected ∨ actual = .unknown := by
  simp only [Ty.fits, decide_eq_true_eq] at fits
  rcases fits with unknown | impossible | same
  · exact .inr unknown
  · cases impossible
  · exact .inl same

theorem fits_of_expect {loc : Option Location} {actual expected : Ty}
    (passed : expect loc actual expected = .ok ()) : actual.fits expected = true :=
  (yields_expect loc actual expected).result passed

variable {leftType rightType : Ty}

theorem fits_of_expectAll {expected : Ty}
    (passed : expectAll expected [(left, leftType), (right, rightType)] = .ok ()) :
    leftType.fits expected = true ∧ rightType.fits expected = true := by
  obtain ⟨_, first, passed⟩ := bind_eq_ok_iff.mp passed
  obtain ⟨_, second, _⟩ := bind_eq_ok_iff.mp passed
  exact ⟨fits_of_expect first, fits_of_expect second⟩

theorem comparable_of_equality {operator : Operator} (equality : operator = .eq ∨ operator = .ne)
    (passed : operatorType operator [(left, leftType), (right, rightType)] = .ok type) :
    leftType = rightType ∨ leftType = .unknown ∨ rightType = .unknown := by
  by_cases unknown : leftType = .unknown
  · exact .inr (.inl unknown)
  have checked : (do
      expect right.loc rightType leftType
      return Ty.known .boolean : Lowering Ty) = .ok type := by
    rcases equality with rfl | rfl <;>
      simpa only [operatorType, ne_eq, unknown, not_false_eq_true, if_true] using passed
  obtain ⟨_, fitting, _⟩ := bind_eq_ok_iff.mp checked
  have fits := fits_of_expect fitting
  simp only [Ty.fits, decide_eq_true_eq] at fits
  rcases fits with rightUnknown | leftUnknown | same
  · exact .inr (.inr rightUnknown)
  · exact absurd leftUnknown unknown
  · exact .inl same.symm

/-- An operator whose operands pass the check is stated by a comparison that they fit. -/
theorem comparable_of_operatorType {operator : Operator} {cmp : String} (notNot : operator ≠ .not)
    (stated : Emit.comparison operator = .ok cmp)
    (passed : operatorType operator [(left, leftType), (right, rightType)] = .ok type) :
    Ty.Comparable cmp leftType rightType := by
  have both : ∀ {expected : ValueType} {result : Ty},
      (do
        expectAll (.known expected) [(left, leftType), (right, rightType)]
        return result : Lowering Ty) = .ok type →
      (leftType = .known expected ∨ leftType = .unknown) ∧
        (rightType = .known expected ∨ rightType = .unknown) := by
    intro expected result checked
    obtain ⟨_, all, _⟩ := bind_eq_ok_iff.mp checked
    obtain ⟨leftFits, rightFits⟩ := fits_of_expectAll all
    exact ⟨eq_or_unknown_of_fits leftFits, eq_or_unknown_of_fits rightFits⟩
  cases operator with
  | not => exact absurd rfl notNot
  | and =>
    cases stated
    exact both passed
  | or =>
    cases stated
    exact both passed
  | eq =>
    cases stated
    exact ⟨.inl rfl, comparable_of_equality (.inl rfl) passed⟩
  | ne =>
    cases stated
    exact ⟨.inr rfl, comparable_of_equality (.inr rfl) passed⟩
  | lt =>
    cases stated
    exact both passed
  | le =>
    cases stated
    exact both passed
  | gt =>
    cases stated
    exact both passed
  | ge =>
    cases stated
    exact both passed
  | _ => cases stated

/-! ## Conditions -/

theorem comparable_of_checkCondition {condition : Expr} {left right : Emit.Operand} {cmp : String}
    (checked : checkCondition registry condition = .ok ())
    (shaped : Emit.shape condition = .ok (left, cmp, right)) :
    ∃ first second firstType secondType, condition.comparands? = some (first, second) ∧
      Emit.operand first = .ok left ∧ Emit.operand second = .ok right ∧
      first.operandType? registry = some firstType ∧
      second.operandType? registry = some secondType ∧
      Ty.Comparable cmp firstType secondType := by
  obtain ⟨type, typed, fitting⟩ := bind_eq_ok_iff.mp checked
  by_cases single : condition.isCompound = false
  · rw [Emit.shape_of_not_isCompound single] at shaped
    obtain ⟨operand, stated, shaped⟩ := bind_pure_eq_ok_iff.mp shaped
    cases shaped
    have whole : condition.comparands? = some (condition, .boolean true condition.loc) := by
      cases condition with
      | compound operator args loc => cases single
      | _ => rfl
    refine ⟨condition, _, type, .known .boolean, whole, stated, rfl,
      operandType?_of_typeOf typed stated, rfl, .inl rfl, ?_⟩
    rcases eq_or_unknown_of_fits (fits_of_expect fitting) with boolean | unknown
    · exact .inl boolean
    · exact .inr (.inl unknown)
  cases condition with
  | compound operator args loc =>
    obtain ⟨argTypes, argsTyped, passed⟩ := bind_eq_ok_iff.mp typed
    by_cases isNot : operator = .not
    · subst isNot
      match args, argsTyped, shaped with
      | [inner], argsTyped, shaped =>
        obtain ⟨innerType, innerTyped, argsTyped⟩ := bind_eq_ok_iff.mp argsTyped
        cases argsTyped
        obtain ⟨operand, stated, shaped⟩ := bind_pure_eq_ok_iff.mp shaped
        cases shaped
        obtain ⟨_, all, _⟩ := bind_eq_ok_iff.mp passed
        obtain ⟨_, innerFits, _⟩ := bind_eq_ok_iff.mp all
        refine ⟨inner, _, innerType, .known .boolean, rfl, stated, rfl,
          operandType?_of_typeOf innerTyped stated, rfl, .inl rfl, ?_⟩
        rcases eq_or_unknown_of_fits (fits_of_expect innerFits) with boolean | unknown
        · exact .inl boolean
        · exact .inr (.inl unknown)
    · obtain ⟨first, second, rfl⟩ := Emit.exists_pair_of_shape isNot shaped
      rw [Emit.shape_binary isNot] at shaped
      obtain ⟨stated, compared, shaped⟩ := bind_eq_ok_iff.mp shaped
      obtain ⟨firstOperand, firstStated, shaped⟩ := bind_eq_ok_iff.mp shaped
      obtain ⟨secondOperand, secondStated, shaped⟩ := bind_pure_eq_ok_iff.mp shaped
      cases shaped
      obtain ⟨firstType, firstTyped, argsTyped⟩ := bind_eq_ok_iff.mp argsTyped
      obtain ⟨others, othersTyped, argsTyped⟩ := bind_pure_eq_ok_iff.mp argsTyped
      obtain ⟨secondType, secondTyped, othersTyped⟩ := bind_eq_ok_iff.mp othersTyped
      cases othersTyped
      cases argsTyped
      have pair : (Expr.compound operator [first, second] loc).comparands? =
          some (first, second) := by
        cases operator with
        | not => exact absurd rfl isNot
        | _ => rfl
      exact ⟨first, second, firstType, secondType, pair, firstStated, secondStated,
        operandType?_of_typeOf firstTyped firstStated,
        operandType?_of_typeOf secondTyped secondStated,
        comparable_of_operatorType isNot compared passed⟩
  | _ => exact absurd rfl single

end Types

/-! ## Values -/

theorem Constant.typed_of_typeOf {registry : Registry} {constant : Constant} {type : Ty}
    {declared : ValueType} (typed : Types.typeOf registry value = .ok type)
    (fits : type.fits (.known declared) = true) (stated : Emit.constant value = .ok constant) :
    Constant.Typed declared value constant := by
  have sameType : type ≠ .unknown → type = .known declared := fun known =>
    (Types.eq_or_unknown_of_fits fits).resolve_right known
  cases value with
  | string value loc =>
    cases typed
    cases stated
    cases sameType nofun
    exact .string value loc
  | boolean value loc =>
    cases typed
    cases stated
    cases sameType nofun
    exact .boolean value loc
  | number value loc =>
    cases typed
    cases stated
    cases sameType nofun
    cases small : value.toSmallInt? with
    | some n =>
      simp only [Constant.ofNumber, small]
      exact .integer value n loc small
    | none =>
      simp only [Constant.ofNumber, small]
      cases value with
      | finite negative significand exponent =>
        exact .decimal negative significand exponent loc
      | infinite negative => exact .infinite negative loc
      | notANumber => exact .notANumber loc
  | _ => cases stated

namespace Types

variable {registry : Registry} {reference : Ident → Expr → Prop}

theorem Passed.declared {target : Expr} {condition : Option Expr}
    (passed : Passed registry reference target value condition) :
    ∃ name declared type, target.name? = some name ∧ registry.settingType? name = some declared ∧
      typeOf registry value = .ok type ∧ type.fits (.known declared) = true := by
  obtain ⟨⟨⟨word, loc, rfl, known⟩, _, _⟩, checked⟩ := passed
  obtain ⟨declared, found⟩ := Option.isSome_iff_exists.mp known
  have checked := checked default
  simp only [checkStmt, Expr.name?, found] at checked
  obtain ⟨type, typed, checked⟩ := bind_eq_ok_iff.mp checked
  obtain ⟨_, fitting, _⟩ := bind_eq_ok_iff.mp checked
  exact ⟨word.name, declared, type, rfl, found, typed, fits_of_expect fitting⟩

end Types

/-! ## Documents -/

namespace Emit

variable {program : List Stmt}

theorem exists_assign_of_mem {a : Assignment} (member : a ∈ program.filterMap Stmt.assignment?) :
    ∃ target tag, .assign target a.value a.condition tag ∈ program ∧
      target.name? = some a.name := by
  obtain ⟨s, inProgram, assigns⟩ := List.mem_filterMap.mp member
  cases s with
  | assign target value condition tag =>
    obtain ⟨name, named, rfl⟩ := Option.map_eq_some_iff.mp assigns
    exact ⟨target, tag, inProgram, named⟩
  | _ => cases assigns

theorem cmp_of_ruleOf {condition : Option Expr} {rule : Rule}
    (computed : value.isConstant = false) (stated : ruleOf value condition = .ok rule) :
    rule.cmp = valueComparison := by
  cases value with
  | eval text loc =>
    cases condition with
    | none =>
      cases stated
      rfl
    | some condition =>
      obtain ⟨holds, _, rfl⟩ := bind_pure_eq_ok_iff.mp stated
      rfl
  | string value loc => cases computed
  | number value loc => cases computed
  | boolean value loc => cases computed
  | _ =>
    cases condition with
    | none => cases stated
    | some condition =>
      obtain ⟨_, _, stated⟩ := bind_eq_ok_iff.mp stated
      obtain ⟨_, impossible, _⟩ := bind_eq_ok_iff.mp stated
      cases impossible

theorem wellTyped_of_statements {registry : Registry} {reference : Ident → Expr → Prop}
    {fired : TriggerArg → List TriggerArg → Prop} {document : Document}
    (flat : ∀ s ∈ program, s.Flat (Types.Passed registry reference) fired)
    (emitted : emit program = .ok document) : document.WellTyped registry program := by
  have passes : ∀ {target value condition tag},
      Stmt.assign target value condition tag ∈ program →
      Types.Passed registry reference target value condition := by
    intro target value condition tag member
    cases flat _ member with
    | assign _ _ _ _ passed => exact passed
  have reads := reads_of_emit emitted
  refine ⟨?_, ?_, ?_⟩
  · intro name ret found
    obtain ⟨last, isLast, stated⟩ := (reads.settings name ret).mp found
    obtain ⟨inSettings, toName⟩ := List.mem_filter.mp (List.mem_of_getLast? isLast)
    obtain ⟨assigns, sets⟩ := List.mem_filter.mp inSettings
    obtain ⟨target, tag, member, named⟩ := exists_assign_of_mem assigns
    have unconditional := Option.isNone_iff_eq_none.mp (Bool.and_eq_true_iff.mp sets).1
    rw [unconditional] at member
    rw [of_decide_eq_true toName] at named
    obtain ⟨name', declared, type, named', found', typed, fits⟩ := (passes member).declared
    cases named.symm.trans named'
    exact ⟨declared, target, last.value, tag, found', member, named,
      Constant.typed_of_typeOf typed fits stated⟩
  · intro name rules found
    obtain ⟨assigned, _⟩ := (reads.overrides name rules).mp found
    obtain ⟨a, isAssigned⟩ := List.exists_mem_of_ne_nil _ assigned
    obtain ⟨inOverrides, toName⟩ := List.mem_filter.mp isAssigned
    obtain ⟨target, tag, member, named⟩ := exists_assign_of_mem (List.mem_filter.mp inOverrides).1
    rw [of_decide_eq_true toName] at named
    obtain ⟨name', declared, _, named', found', _⟩ := (passes member).declared
    cases named.symm.trans named'
    exact ⟨declared, found'⟩
  · intro name rules i rule found inRules
    have ofName : document.rulesFor name = rules := by
      rw [Document.rulesFor, found]
      rfl
    rw [← ofName] at inRules
    obtain ⟨before, target, value, condition, tag, after, whole, named, place, overriding, stated⟩ :=
      exists_assign_of_rule emitted inRules (Nat.zero_le i)
    have count : before.countP (Stmt.overrides name) = i := by
      simpa [Document.rulesFor, Document.empty, Table.get?, Table.empty] using place
    have member : Stmt.assign target value condition tag ∈ program := by
      rw [whole]
      simp
    obtain ⟨name', declared, type, named', found', typed, fits⟩ := (passes member).declared
    cases named.symm.trans named'
    refine ⟨declared, before, target, value, condition, tag, after, found', whole, named, count, ?_⟩
    cases fixed : value.isConstant with
    | false => exact .inl ⟨rfl, cmp_of_ruleOf fixed stated⟩
    | true =>
      rw [fixed] at overriding
      cases condition with
      | none => cases overriding
      | some own =>
        obtain ⟨left, cmp, right, ret, shaped, retStated, rfl⟩ :=
          conditionalRule_of_isConstant fixed stated
        obtain ⟨first, second, firstType, secondType, comparison⟩ :=
          Types.comparable_of_checkCondition (passes member).checkCondition shaped
        exact .inr ⟨rfl, own, rfl, Constant.typed_of_typeOf typed fits retStated,
          first, second, firstType, secondType, comparison⟩

end Emit

/-- The document of every script that compiles is well typed. -/
theorem document_wellTyped
    {registry : Registry} {source : String} {document : Document}
    (compiled : compile registry source = .ok document) :
    ∃ program lowered, parse source = (program, []) ∧
      lowerProgram registry program = .ok lowered ∧ emit lowered = .ok document ∧
      document.WellTyped registry lowered := by
  obtain ⟨program, lowered, parsed, ran, emitted⟩ := compile_eq_ok_iff.mp compiled
  have input := input_of_parse registry parsed
  have output := output_of_runStages input (runStages_of_lowerThrough ran)
  exact ⟨program, lowered, parsed, ran, emitted, Emit.wellTyped_of_statements output emitted⟩

/-- A value, and rules with a comparison of numbers, with text of no known type, with `== false`,
and with `A?B`. -/
theorem document_wellTyped_mixedRules :
    ∃ document program lowered,
      compile Registry.builtin ("autoJobs = ON\nSell.Coal = OFF if Citizens > 5\n" ++
        "Sell.Coal = ON if \x7bx\x7d == 2\nautoJobs = OFF if not Starving\n" ++
        "autoJobs = Starving if ResourceDemanded.Coal") = .ok document ∧
      document.settings.entries.map (·.1) = ["autoJobs"] ∧
      document.overrides.entries.map (fun entry => (entry.1, entry.2.map Rule.cmp)) =
        [("sellCoal", [">", "=="]), ("autoJobs", ["==", "A?B"])] ∧
      lowerProgram Registry.builtin program = .ok lowered ∧ emit lowered = .ok document ∧
      document.WellTyped Registry.builtin lowered := by
  generalize script : "autoJobs = ON\nSell.Coal = OFF if Citizens > 5\n" ++
    "Sell.Coal = ON if \x7bx\x7d == 2\nautoJobs = OFF if not Starving\n" ++
    "autoJobs = Starving if ResourceDemanded.Coal" = source
  have content : ((compile Registry.builtin source).toOption.map fun document =>
      (document.settings.entries.map (·.1),
        document.overrides.entries.map fun entry => (entry.1, entry.2.map Rule.cmp))) =
      some (["autoJobs"], [("sellCoal", [">", "=="]), ("autoJobs", ["==", "A?B"])]) := by
    rw [← script, compile]
    simp only [parse_eq_parseChars, String.toList_append]
    decide +kernel
  obtain ⟨document, compiled, parts⟩ := exists_ok_of_toOption_map content
  obtain ⟨values, rules⟩ := Prod.mk.inj parts
  obtain ⟨program, lowered, _, ran, emitted, typed⟩ := document_wellTyped compiled
  exact ⟨document, program, lowered, compiled, values, rules, ran, emitted, typed⟩

end AutomationScript
