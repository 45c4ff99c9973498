import AutomationScript.Proofs.Document.ConditionalRules
import AutomationScript.Proofs.Term.Row
import AutomationScript.Registry.Builtin

/-!
# Conditions of rules for computed values

A rule for a computed value states its condition as one text, and the operands of the root have no
parentheses in it.  `computedRule_arg1_eq_iff` says which conditions share a text.
-/

namespace AutomationScript

/-! ## Groupings that do not matter -/

namespace Term

/-- The two groupings of three operands under one `and` or one `or`. -/
def Reassociated (left right : Term) : Prop :=
  ∃ operator first middle last, (operator = .and ∨ operator = .or) ∧
    left = .binary operator (.binary operator first middle) last ∧
    right = .binary operator first (.binary operator middle last)

/-- `and` and `or` are associative, also where they have no value. -/
theorem operate?_assoc (r : Runtime) {operator : Operator}
    (logical : operator = .and ∨ operator = .or) (a b c : Value) :
    (r.operate? operator a b >>= fun joined => r.operate? operator joined c) =
      (r.operate? operator b c >>= fun joined => r.operate? operator a joined) := by
  rcases logical with rfl | rfl
  · cases a with
    | boolean a =>
      cases b with
      | boolean b =>
        cases c with
        | boolean c => simp [Runtime.operate?, Bool.and_assoc]
        | _ => rfl
      | _ => cases c <;> rfl
    | _ => cases b <;> cases c <;> rfl
  · cases a with
    | boolean a =>
      cases b with
      | boolean b =>
        cases c with
        | boolean c => simp [Runtime.operate?, Bool.or_assoc]
        | _ => rfl
      | _ => cases c <;> rfl
    | _ => cases b <;> cases c <;> rfl

theorem Reassociated.value?_eq {left right : Term} (reassociated : Reassociated left right)
    (r : Runtime) : left.value? r = right.value? r := by
  obtain ⟨operator, first, middle, last, logical, rfl, rfl⟩ := reassociated
  simp only [value?]
  cases first.value? r with
  | none => rfl
  | some a =>
    cases middle.value? r with
    | none => rfl
    | some b =>
      cases last.value? r with
      | none => cases joined : r.operate? operator a b <;> simp [joined]
      | some c => exact operate?_assoc r logical a b c

/-- Two groupings that share a text and can differ in value. -/
def Conflated (left right : Term) : Prop :=
  Regrouped left right ∧ ¬ Reassociated left right

end Term

/-! ## The text of a condition -/

namespace Conditions

theorem text_lowerOperand {operand : Expr} {lowered : Revised Expr} {loweredTerm : Term}
    (ran : lowerOperand operand = .ok lowered) (found : lowered.value.term? = some loweredTerm) :
    ∃ term, operand.term? = some term ∧ loweredTerm.isBinary = false ∧
      loweredTerm.text true = term.text false := by
  rcases lowerOperand_cases ran with
    ⟨text, _, spelled, rfl⟩ | ⟨text, inline, rfl⟩ | ⟨single, _, rfl⟩
  · cases found
    obtain ⟨term, termFound, rfl⟩ := Expr.evalText_eq_ok_iff.mp spelled
    exact ⟨term, termFound, rfl, rfl⟩
  · cases found
    exact ⟨.raw text, Expr.term?_of_inlineEval? inline, rfl, rfl⟩
  · have notBinary := Term.not_isBinary_of_isLeaf (Expr.isLeaf_of_not_isCompound single found)
    exact ⟨loweredTerm, found, notBinary, Term.text_eq_text_of_not_isBinary notBinary _ _⟩

theorem text_lowerCondition {condition : Expr} {lowered : Revised Expr} {text : String}
    (ran : lowerCondition condition = .ok lowered)
    (spelled : lowered.value.evalText false = .ok text) :
    ∃ term, condition.term? = some term ∧ term.conditionText = text := by
  obtain ⟨loweredTerm, found, rfl⟩ := Expr.evalText_eq_ok_iff.mp spelled
  rcases lowerCondition_cases ran with ⟨operator, args, loc, revised, rfl, argsRan, rfl⟩ |
    ⟨single, operandRan⟩
  · rcases Expr.term?_compound_cases found with
      ⟨operand, inner, rfl, oneOperand, operandFound, rfl⟩ |
      ⟨left, right, leftTerm, rightTerm, notNot, twoOperands, leftFound, rightFound, rfl⟩
    · obtain ⟨arg, rest, first, others, rfl, firstRan, rfl, othersRan, noOthers⟩ :=
        eq_cons_of_reviseList argsRan oneOperand
      cases eq_nil_of_reviseList othersRan noOthers
      obtain ⟨term, termFound, _, sameText⟩ := text_lowerOperand firstRan operandFound
      refine ⟨.negation term, by rw [Expr.term?_not, termFound]; rfl, ?_⟩
      rw [Term.conditionText, Term.text, sameText]
    · obtain ⟨leftArg, rest, first, others, rfl, firstRan, rfl, othersRan, nonempty⟩ :=
        eq_cons_of_reviseList argsRan twoOperands
      obtain ⟨rightArg, rest, second, more, rfl, secondRan, rfl, moreRan, noMore⟩ :=
        eq_cons_of_reviseList othersRan nonempty
      cases eq_nil_of_reviseList moreRan noMore
      obtain ⟨term, termFound, _, sameLeft⟩ := text_lowerOperand firstRan leftFound
      obtain ⟨term', termFound', _, sameRight⟩ := text_lowerOperand secondRan rightFound
      refine ⟨.binary operator term term', ?_, ?_⟩
      · rw [Expr.term?_binary notNot, termFound, termFound']
        rfl
      · rw [Term.conditionText, Term.text, sameLeft, sameRight]
        rfl
  · obtain ⟨term, termFound, notBinary, sameText⟩ := text_lowerOperand operandRan found
    have leaf := Expr.isLeaf_of_not_isCompound single termFound
    refine ⟨term, termFound, ?_⟩
    rw [Term.text_eq_text_of_not_isBinary notBinary false true, sameText]
    cases term with
    | negation operand => cases leaf
    | binary operator left right => cases leaf
    | _ => rfl

end Conditions

/-! ## Which conditions share a text -/

/-- Whether the text of a node can hide where the node ends: it was written in braces, or a string
or a name has a quote in it. -/
def Expr.isOpaque : Expr → Bool
  | .string value _ => value.toList.contains '\''
  | .subscript base (.ident key _) _ =>
    base.name == evalName || base.name.toList.contains '\'' || key.name.toList.contains '\''
  | .eval _ _ => true
  | _ => false

theorem Expr.plain_of_not_opaque {e : Expr} {term : Term}
    (clear : e.hasNode false Expr.isOpaque = false) (found : e.term? = some term) : term.Plain := by
  induction e using Expr.term?.induct generalizing term with
  | case1 value loc =>
    cases found
    simpa [hasNode, isOpaque, Term.Plain] using clear
  | case2 value loc =>
    cases found
    exact isNumeral_text value
  | case3 value loc =>
    cases found
    exact True.intro
  | case4 text loc =>
    cases clear
  | case5 base key keyLoc loc =>
    simp only [hasNode, isOpaque, Bool.false_and, Bool.or_false, Bool.or_eq_false_iff,
      beq_eq_false_iff_ne] at clear
    rw [term?, if_neg clear.1.1] at found
    cases found
    simpa [Term.Plain] using And.intro clear.1.2 clear.2
  | case6 operand loc ih =>
    rw [term?_not] at found
    obtain ⟨inner, operandFound, rfl⟩ := Option.map_eq_some_iff.mp found
    simp only [hasNode, anyHasNode, isOpaque, Bool.false_or, Bool.or_false] at clear
    have inside : inner.Plain := ih clear operandFound
    exact inside
  | case8 operator left right loc notNot ihLeft ihRight =>
    rw [term?_binary notNot] at found
    obtain ⟨leftTerm, leftFound, found⟩ := Option.bind_eq_some_iff.mp found
    obtain ⟨rightTerm, rightFound, rfl⟩ := Option.map_eq_some_iff.mp found
    simp only [hasNode, anyHasNode, isOpaque, Bool.false_or, Bool.or_false,
      Bool.or_eq_false_iff] at clear
    exact ⟨ihLeft clear.1 leftFound, ihRight clear.2 rightFound⟩
  | case7 args loc notOne =>
    rw [term?] at found
    · cases found
    · exact notOne
  | case9 e =>
    have none : e.term? = none := by
      rw [term?] <;> assumption
    rw [none] at found
    cases found

theorem ConditionalRule.arg1_eq {registry : Registry} {source : String} {c : ConditionalRule}
    (member : c ∈ conditionalRules registry source) (computed : c.value.isConstant = false) :
    c.rule.cmp = Emit.valueComparison ∧
      ∃ term, c.condition.term? = some term ∧ c.rule.arg1 = .string term.conditionText := by
  obtain ⟨value, condition, valueRan, conditionRan, ruled⟩ := lowered member
  have isText : ∃ text loc, value.value = .eval text loc := by
    rcases Conditions.lowerValue_cases valueRan with
      ⟨rfl, constant | inline⟩ | ⟨text, _, _, rfl⟩
    · rw [computed] at constant
      cases constant
    · exact inline
    · exact ⟨text, c.value.loc, rfl⟩
  obtain ⟨text, loc, isText⟩ := isText
  rw [isText] at ruled
  obtain ⟨holds, spelled, stated⟩ := bind_pure_eq_ok_iff.mp ruled
  obtain ⟨term, found, rfl⟩ := Conditions.text_lowerCondition conditionRan spelled
  exact ⟨by rw [← stated], term, found, by rw [← stated]⟩

/-- The rules of two computed values state their conditions by the same text exactly when the
conditions are the same or regroup each other.  If neither can be mistaken for the other, the
conditions then have the same value in every runtime. -/
theorem computedRule_arg1_eq_iff
    {registry : Registry} {source source' : String} {c c' : ConditionalRule}
    (member : c ∈ conditionalRules registry source)
    (member' : c' ∈ conditionalRules registry source')
    (computed : c.value.isConstant = false)
    (computed' : c'.value.isConstant = false)
    (clear : c.condition.hasNode false Expr.isOpaque = false)
    (clear' : c'.condition.hasNode false Expr.isOpaque = false) :
    ∃ term term', c.condition.term? = some term ∧ c'.condition.term? = some term' ∧
      c.rule.cmp = Emit.valueComparison ∧ c'.rule.cmp = Emit.valueComparison ∧
      (c.rule.arg1 = c'.rule.arg1 ↔
        term = term' ∨ term.Regrouped term' ∨ term'.Regrouped term) ∧
      (c.rule.arg1 = c'.rule.arg1 → ¬ term.Conflated term' → ¬ term'.Conflated term →
        ∀ r, c.condition.value? r = c'.condition.value? r) := by
  obtain ⟨comparison, term, found, text⟩ := ConditionalRule.arg1_eq member computed
  obtain ⟨comparison', term', found', text'⟩ := ConditionalRule.arg1_eq member' computed'
  have sameText : c.rule.arg1 = c'.rule.arg1 ↔
      term = term' ∨ term.Regrouped term' ∨ term'.Regrouped term := by
    rw [text, text', Constant.string.injEq]
    exact Term.conditionText_eq_iff (Expr.plain_of_not_opaque clear found)
      (Expr.plain_of_not_opaque clear' found')
  refine ⟨term, term', found, found', comparison, comparison', sameText, ?_⟩
  intro same notConflated notConflated' r
  have sameValue : term.value? r = term'.value? r := by
    rcases sameText.mp same with rfl | regrouped | regrouped
    · rfl
    · have harmless := Classical.not_not.mp fun other => notConflated ⟨regrouped, other⟩
      exact harmless.value?_eq r
    · have harmless := Classical.not_not.mp fun other => notConflated' ⟨regrouped, other⟩
      exact (harmless.value?_eq r).symm
  rw [Expr.value?, Expr.value?, found, found']
  exact sameValue

/-- Nested blocks and one row of `and`s group their conditions differently and share a text. -/
theorem computedRule_arg1_nestedBlocks :
    ∃ c ∈ conditionalRules Registry.builtin
        ("if Starving then\n" ++
          "autoJobs = Starving if MadToggle and SettingCurrent.autoJobs\nend"),
      ∃ c' ∈ conditionalRules Registry.builtin
        "autoJobs = Starving if Starving and MadToggle and SettingCurrent.autoJobs",
      c.condition.term? ≠ c'.condition.term? ∧ c.rule.arg1 = c'.rule.arg1 ∧
        ∀ r, c.condition.value? r = c'.condition.value? r := by
  have checked :
      ∃ c ∈ conditionalRules Registry.builtin
          ("if Starving then\n" ++
          "autoJobs = Starving if MadToggle and SettingCurrent.autoJobs\nend"),
        ∃ c' ∈ conditionalRules Registry.builtin
          "autoJobs = Starving if Starving and MadToggle and SettingCurrent.autoJobs",
        c.value.isConstant = false ∧ c'.value.isConstant = false ∧
          c.condition.hasNode false Expr.isOpaque = false ∧
          c'.condition.hasNode false Expr.isOpaque = false ∧
          c.condition.term? = some (.binary .and (.call "Other" "strv")
            (.binary .and (.call "Other" "madt") (.call "SettingCurrent" "autoJobs"))) ∧
          c'.condition.term? = some (.binary .and
            (.binary .and (.call "Other" "strv") (.call "Other" "madt"))
            (.call "SettingCurrent" "autoJobs")) := by
    simp only [conditionalRules_eq_ofChars, String.toList_append]
    decide +kernel
  obtain ⟨c, member, c', member', computed, computed', clear, clear', nested, row⟩ := checked
  obtain ⟨term, term', found, found', _, _, sameText, sameValue⟩ :=
    computedRule_arg1_eq_iff member member' computed computed' clear clear'
  rw [nested] at found
  cases found
  rw [row] at found'
  cases found'
  have same : c.rule.arg1 = c'.rule.arg1 :=
    sameText.mpr (.inr (.inr (.binary .and .and _ _ _ rfl rfl)))
  refine ⟨c, member, c', member', ?_, same, sameValue same ?_ ?_⟩
  · rw [nested, row]
    decide
  · rintro ⟨regrouped, _⟩
    cases regrouped
  · rintro ⟨_, different⟩
    exact different ⟨.and, _, _, _, .inl rfl, rfl, rfl⟩

/-- The value is computed, and the condition has no text in braces. -/
def ConditionalRule.isComputed (c : ConditionalRule) : Bool :=
  !c.value.isConstant && !c.condition.hasNode false fun e => e.inlineEval?.isSome

/-- The grouping of `and` and `or` is lost, and a string with quotes in it passes for two. -/
theorem computedRules_mistake_conditions :
    (∃ c ∈ conditionalRules Registry.builtin
        ("autoJobs = Starving if Starving and (MadToggle or SettingCurrent.autoJobs)\n" ++
          "autoJobs = Starving if (Starving and MadToggle) or SettingCurrent.autoJobs"),
      ∃ c' ∈ conditionalRules Registry.builtin
        ("autoJobs = Starving if Starving and (MadToggle or SettingCurrent.autoJobs)\n" ++
          "autoJobs = Starving if (Starving and MadToggle) or SettingCurrent.autoJobs"),
      c.isComputed ∧ c'.isComputed ∧
        c.Mistaken (.ofReading fun _ key => .boolean (key == "autoJobs")) c') ∧
    ∃ c ∈ conditionalRules Registry.builtin "autoJobs = Starving if \"a\" == \"a' && 'b' == 'b\"",
      ∃ c' ∈ conditionalRules Registry.builtin
        "autoJobs = Starving if \"a\" == \"a\" and \"b\" == \"b\"",
      c.isComputed ∧ c'.isComputed ∧ c.Mistaken (.ofReading fun _ _ => .boolean true) c' := by
  simp only [conditionalRules_eq_ofChars, String.toList_append]
  decide +kernel

end AutomationScript
