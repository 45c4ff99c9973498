import AutomationScript.Proofs.Term.Reading

/-!
# Conditions as rows of operands

In the text of a rule's condition, the operands of the root have no parentheses around them.  Two
conditions with the same text have the same row of operands and operators, and no more than that
(`Term.conditionText_eq_iff`): they are the same, or the one is a regrouping of the other.
-/

namespace AutomationScript

open List

/-- An operand, and further operands after it with the operators before them. -/
@[ext]
structure Row where
  first : Term
  rest : List (Operator × Term)
deriving DecidableEq, Repr

namespace Row

def restChars : List (Operator × Term) → List Char
  | [] => []
  | (operator, operand) :: rest =>
    ' ' :: (operator.evalSymbol.toList ++ ' ' :: ((operand.text true).toList ++ restChars rest))

def chars (row : Row) : List Char :=
  (row.first.text true).toList ++ restChars row.rest

/-- A row of operands whose texts can be read back. -/
def Plain (row : Row) : Prop :=
  row.first.Plain ∧ ∀ entry ∈ row.rest, entry.2.Plain

theorem restChars_append (front back : List (Operator × Term)) :
    restChars (front ++ back) = restChars front ++ restChars back := by
  induction front with
  | nil =>
    rfl
  | cons entry rest ih =>
    simp [restChars, ih]

theorem stops_restChars (rest : List (Operator × Term)) : Stops (restChars rest) := by
  cases rest with
  | nil =>
    exact True.intro
  | cons entry others =>
    exact Or.inl rfl

theorem restChars_injective {left : List (Operator × Term)}
    (plainLeft : ∀ entry ∈ left, entry.2.Plain) :
    ∀ {right : List (Operator × Term)}, (∀ entry ∈ right, entry.2.Plain) →
      restChars left = restChars right → left = right := by
  induction left with
  | nil =>
    intro right _ equal
    cases right with
    | nil => rfl
    | cons entry others => simp [restChars] at equal
  | cons entry others ih =>
    obtain ⟨operator, operand⟩ := entry
    intro right plainRight equal
    cases right with
    | nil =>
      simp [restChars] at equal
    | cons entry' others' =>
      obtain ⟨operator', operand'⟩ := entry'
      have inner := (List.cons.inj equal).2
      -- The symbols stop at the first blank, so they can be compared first.
      have symbols := congrArg (splitAtMark ' ') inner
      rw [splitAtMark_append operator.space_notMem_evalSymbol,
        splitAtMark_append operator'.space_notMem_evalSymbol, Prod.mk.injEq] at symbols
      have sameOperator : operator = operator' := by
        have found := Operator.ofEvalSymbol?_evalSymbol operator
        rw [symbols.1, Operator.ofEvalSymbol?_evalSymbol] at found
        exact (Option.some.inj found).symm
      have operands :=
        Term.text_append_injective (plainLeft _ mem_cons_self)
          (plainRight _ mem_cons_self) (stops_restChars others)
          (stops_restChars others') symbols.2
      have sameOthers : others = others' :=
        ih (fun entry member => plainLeft entry (mem_cons_of_mem _ member))
          (fun entry member => plainRight entry (mem_cons_of_mem _ member)) operands.2
      have sameOperand : operand = operand' := operands.1
      rw [sameOperator, sameOperand, sameOthers]

theorem chars_injective {left right : Row} (plainLeft : left.Plain) (plainRight : right.Plain)
    (equal : left.chars = right.chars) : left = right := by
  obtain ⟨first, rest⟩ := left
  obtain ⟨first', rest'⟩ := right
  obtain ⟨sameFirst, sameChars⟩ : first = first' ∧ restChars rest = restChars rest' :=
    Term.text_append_injective plainLeft.1 plainRight.1 (stops_restChars rest)
      (stops_restChars rest') equal
  have sameRest : rest = rest' :=
    restChars_injective plainLeft.2 plainRight.2 sameChars
  rw [sameFirst, sameRest]

end Row

namespace Term

variable {term left right : Term} {operator : Operator}

/-- The text of the condition of a rule, in which the operands of the root are not wrapped. -/
def conditionText : Term → String
  | .negation operand => "!" ++ operand.text false
  | .binary operator left right =>
    left.text false ++ " " ++ operator.evalSymbol ++ " " ++ right.text false
  | term => term.text false

/-- The operands that the text of a term shows without parentheses around them. -/
def parts : Term → Row
  | .binary operator left right => ⟨left, [(operator, right)]⟩
  | term => ⟨term, []⟩

/-- The operands that the text of a condition shows. -/
def row : Term → Row
  | .negation (.binary operator left right) => ⟨.negation left, [(operator, right)]⟩
  | .binary operator left right =>
    ⟨left.parts.first, left.parts.rest ++ (operator, right.parts.first) :: right.parts.rest⟩
  | term => ⟨term, []⟩

theorem parts_binary (operator : Operator) (left right : Term) :
    (binary operator left right).parts = ⟨left, [(operator, right)]⟩ :=
  rfl

theorem row_binary (operator : Operator) (left right : Term) :
    (binary operator left right).row =
      ⟨left.parts.first, left.parts.rest ++ (operator, right.parts.first) :: right.parts.rest⟩ :=
  rfl

theorem row_negation_binary (operator : Operator) (left right : Term) :
    (negation (binary operator left right)).row = ⟨.negation left, [(operator, right)]⟩ :=
  rfl

theorem single_or_binary (term : Term) :
    term.isBinary = false ∨ ∃ operator left right, term = .binary operator left right := by
  cases term with
  | binary operator left right => exact Or.inr ⟨operator, left, right, rfl⟩
  | _ => exact Or.inl rfl

theorem parts_of_single (single : term.isBinary = false) : term.parts = ⟨term, []⟩ := by
  cases term with
  | binary operator left right => simp [isBinary] at single
  | _ => rfl

theorem toList_text_false (term : Term) : (term.text false).toList = term.parts.chars := by
  rcases term.single_or_binary with single | ⟨operator, left, right, rfl⟩
  · rw [parts_of_single single, text_eq_text_of_not_isBinary single false true]
    simp [Row.chars, Row.restChars]
  · simp [text, parts, Row.chars, Row.restChars]

theorem row_negation_of_single {operand : Term} (single : operand.isBinary = false) :
    (negation operand).row = ⟨.negation operand, []⟩ := by
  cases operand with
  | binary operator left right => simp [isBinary] at single
  | _ => rfl

theorem toList_conditionText (term : Term) : term.conditionText.toList = term.row.chars := by
  cases term with
  | negation operand =>
    have spelled :
        (negation operand).conditionText.toList = '!' :: operand.parts.chars := by
      simp [conditionText, toList_text_false]
    rw [spelled]
    rcases operand.single_or_binary with single | ⟨operator, left, right, rfl⟩
    · rw [row_negation_of_single single, parts_of_single single]
      simp [Row.chars, text]
    · simp [row, parts, Row.chars, text]
  | binary operator left right =>
    simp [conditionText, row, Row.chars, Row.restChars, Row.restChars_append,
      toList_text_false]
  | _ =>
    simp [conditionText, row, Row.chars, Row.restChars, text]

theorem plain_parts (plain : term.Plain) : term.parts.Plain := by
  rcases term.single_or_binary with single | ⟨operator, left, right, rfl⟩
  · rw [parts_of_single single]
    exact ⟨plain, by simp⟩
  · have operands : left.Plain ∧ right.Plain := plain
    exact ⟨operands.1, by simpa [parts] using operands.2⟩

theorem plain_row (plain : term.Plain) : term.row.Plain := by
  cases term with
  | negation operand =>
    rcases operand.single_or_binary with single | ⟨operator, left, right, rfl⟩
    · rw [row_negation_of_single single]
      exact ⟨plain, by simp⟩
    · have operands : left.Plain ∧ right.Plain := plain
      exact ⟨operands.1, by simpa [row] using operands.2⟩
  | binary operator left right =>
    have plainLeft := plain_parts plain.1
    have plainRight := plain_parts plain.2
    refine ⟨plainLeft.1, ?_⟩
    intro entry member
    rcases mem_append.mp member with inLeft | inRight
    · exact plainLeft.2 entry inLeft
    · rcases mem_cons.mp inRight with rfl | later
      · exact plainRight.1
      · exact plainRight.2 entry later
  | _ =>
    exact ⟨plain, by simp [row]⟩

/-- The two groupings of an operand row that one text can stand for.  The outer operands are no
binary terms, since those would stand in parentheses in one of the groupings only. -/
inductive Regrouped : Term → Term → Prop where
  /-- `not (left op right)` and `(not left) op right`. -/
  | negation (operator : Operator) (left right : Term) :
      right.isBinary = false →
      Regrouped (.negation (.binary operator left right))
        (.binary operator (.negation left) right)
  /-- `(left op middle) op' right` and `left op (middle op' right)`. -/
  | binary (operator operator' : Operator) (left middle right : Term) :
      left.isBinary = false →
      right.isBinary = false →
      Regrouped (.binary operator' (.binary operator left middle) right)
        (.binary operator left (.binary operator' middle right))

theorem Regrouped.row_eq (regrouped : Regrouped left right) : left.row = right.row := by
  cases regrouped with
  | negation operator left right single =>
    have negated : (Term.negation left).parts = ⟨.negation left, []⟩ := rfl
    rw [row_negation_binary, row_binary, negated, parts_of_single single]
    rfl
  | binary operator operator' left middle right leftSingle rightSingle =>
    rw [row_binary, row_binary, parts_binary, parts_binary, parts_of_single leftSingle,
      parts_of_single rightSingle]
    rfl

theorem row_of_single (single : term.isBinary = false) :
    term.row = ⟨term, []⟩ ∨
      ∃ operator left right, term = .negation (.binary operator left right) := by
  cases term with
  | negation operand =>
    rcases operand.single_or_binary with operandSingle | ⟨operator, left, right, rfl⟩
    · exact Or.inl (row_negation_of_single operandSingle)
    · exact Or.inr ⟨operator, left, right, rfl⟩
  | binary operator left right => simp [isBinary] at single
  | _ => exact Or.inl rfl

theorem parts_injective (equal : left.parts = right.parts) : left = right := by
  rcases left.single_or_binary with leftSingle | ⟨operator, first, second, rfl⟩ <;>
    rcases right.single_or_binary with rightSingle | ⟨operator', first', second', rfl⟩
  · rw [parts_of_single leftSingle, parts_of_single rightSingle] at equal
    exact congrArg Row.first equal
  · rw [parts_of_single leftSingle, parts_binary] at equal
    simp at equal
  · rw [parts_of_single rightSingle, parts_binary] at equal
    simp at equal
  · rw [parts_binary, parts_binary] at equal
    simp only [Row.mk.injEq, List.cons.injEq, Prod.mk.injEq, and_true] at equal
    rw [equal.1, equal.2.1, equal.2.2]

/-- A row that starts inside a binary left operand and one that starts with a single left operand
are equal only if the second groups the same operands to the right. -/
theorem regrouped_of_row_eq {inner outer : Operator} {middle first second : Term}
    (single : first.isBinary = false)
    (equal : (binary outer (binary inner left middle) right).row =
      (binary operator first second).row) :
    Regrouped (binary outer (binary inner left middle) right) (binary operator first second) := by
  rw [row_binary, row_binary, parts_binary, parts_of_single single] at equal
  simp only [Row.mk.injEq, cons_append, nil_append, List.cons.injEq,
    Prod.mk.injEq] at equal
  obtain ⟨rfl, ⟨rfl, middleFirst⟩, tail⟩ := equal
  rcases second.single_or_binary with secondSingle | ⟨operator', middle', right', rfl⟩
  · rw [parts_of_single secondSingle] at tail
    cases tail
  · rw [parts_binary] at middleFirst tail
    simp only [List.cons.injEq, Prod.mk.injEq] at tail
    obtain ⟨⟨rfl, rightFirst⟩, rightRest⟩ := tail
    rcases right.single_or_binary with rightSingle | ⟨_, _, _, rfl⟩
    · rw [parts_of_single rightSingle] at rightFirst
      have sameMiddle : middle = middle' := middleFirst
      have sameRight : right = right' := rightFirst
      rw [← sameMiddle, ← sameRight]
      exact Regrouped.binary inner outer left middle right single rightSingle
    · rw [parts_binary] at rightRest
      cases rightRest

theorem eq_or_regrouped_of_row_binary {operator' : Operator} {left' right' : Term}
    (equal : (binary operator left right).row = (binary operator' left' right').row) :
    binary operator left right = binary operator' left' right' ∨
      Regrouped (binary operator left right) (binary operator' left' right') ∨
      Regrouped (binary operator' left' right') (binary operator left right) := by
  rcases left.single_or_binary with leftSingle | ⟨inner, first, middle, rfl⟩ <;>
    rcases left'.single_or_binary with leftSingle' | ⟨inner', first', middle', rfl⟩
  · rw [row_binary, row_binary, parts_of_single leftSingle, parts_of_single leftSingle'] at equal
    simp only [Row.mk.injEq, nil_append, List.cons.injEq, Prod.mk.injEq] at equal
    obtain ⟨sameLeft, ⟨sameOperator, sameFirst⟩, sameRest⟩ := equal
    have sameRight : right = right' :=
      parts_injective (Row.ext sameFirst sameRest)
    exact Or.inl (by rw [sameLeft, sameOperator, sameRight])
  · exact Or.inr (Or.inr (regrouped_of_row_eq leftSingle equal.symm))
  · exact Or.inr (Or.inl (regrouped_of_row_eq leftSingle' equal))
  · rw [row_binary, row_binary, parts_binary, parts_binary] at equal
    simp only [Row.mk.injEq, cons_append, nil_append, List.cons.injEq,
      Prod.mk.injEq] at equal
    obtain ⟨sameFirst, ⟨sameInner, sameMiddle⟩, ⟨sameOperator, rightFirst⟩, rightRest⟩ := equal
    have sameRight : right = right' :=
      parts_injective (Row.ext rightFirst rightRest)
    exact Or.inl (by rw [sameFirst, sameInner, sameMiddle, sameOperator, sameRight])

/-- The row of a negated binary term is that of a binary term with a negated left operand. -/
theorem eq_or_regrouped_of_row_negation
    (equal : (negation (binary operator left right)).row = term.row) :
    negation (binary operator left right) = term ∨
      Regrouped (negation (binary operator left right)) term := by
  rw [row_negation_binary] at equal
  rcases term.single_or_binary with single | ⟨operator', first, second, rfl⟩
  · rcases row_of_single single with alone | ⟨operator', left', right', rfl⟩
    · rw [alone] at equal
      simp at equal
    · rw [row_negation_binary] at equal
      simp only [Row.mk.injEq, negation.injEq, List.cons.injEq, Prod.mk.injEq, and_true] at equal
      exact Or.inl (by rw [equal.1, equal.2.1, equal.2.2])
  · rcases first.single_or_binary with firstSingle | ⟨_, _, _, rfl⟩
    · rcases second.single_or_binary with secondSingle | ⟨_, _, _, rfl⟩
      · rw [row_binary, parts_of_single firstSingle, parts_of_single secondSingle] at equal
        simp only [Row.mk.injEq, nil_append, List.cons.injEq, Prod.mk.injEq,
          and_true] at equal
        obtain ⟨rfl, rfl, rfl⟩ := equal
        exact Or.inr (Regrouped.negation operator left right secondSingle)
      · rw [row_binary, parts_of_single firstSingle, parts_binary] at equal
        simp at equal
    · rw [row_binary, parts_binary] at equal
      simp at equal

/-- Conditions show the same row exactly when they are the same or regroup each other. -/
theorem row_eq_iff :
    left.row = right.row ↔ left = right ∨ Regrouped left right ∨ Regrouped right left := by
  constructor
  · intro equal
    rcases left.single_or_binary with leftSingle | ⟨operator, first, second, rfl⟩
    · rcases row_of_single leftSingle with leftAlone | ⟨operator, first, second, rfl⟩
      · rcases right.single_or_binary with rightSingle | ⟨operator', first', second', rfl⟩
        · rcases row_of_single rightSingle with rightAlone | ⟨operator', first', second', rfl⟩
          · rw [leftAlone, rightAlone] at equal
            exact Or.inl (congrArg Row.first equal)
          · rw [leftAlone, row_negation_binary] at equal
            simp at equal
        · rw [leftAlone, row_binary] at equal
          simp at equal
      · rcases eq_or_regrouped_of_row_negation equal with same | regrouped
        · exact Or.inl same
        · exact Or.inr (Or.inl regrouped)
    · rcases right.single_or_binary with rightSingle | ⟨operator', first', second', rfl⟩
      · rcases row_of_single rightSingle with rightAlone | ⟨operator', first', second', rfl⟩
        · rw [rightAlone, row_binary] at equal
          simp at equal
        · rcases eq_or_regrouped_of_row_negation equal.symm with same | regrouped
          · exact Or.inl same.symm
          · exact Or.inr (Or.inr regrouped)
      · exact eq_or_regrouped_of_row_binary equal
  · rintro (rfl | regrouped | regrouped)
    · rfl
    · exact regrouped.row_eq
    · exact regrouped.row_eq.symm

/-- Plain conditions have the same text exactly when they are the same or regroup each other. -/
theorem conditionText_eq_iff (plainLeft : left.Plain) (plainRight : right.Plain) :
    left.conditionText = right.conditionText ↔
      left = right ∨ Regrouped left right ∨ Regrouped right left := by
  rw [← row_eq_iff]
  constructor
  · intro equal
    have chars : left.row.chars = right.row.chars := by
      rw [← toList_conditionText, ← toList_conditionText, equal]
    exact Row.chars_injective (plain_row plainLeft) (plain_row plainRight) chars
  · intro equal
    apply String.toList_inj.mp
    rw [toList_conditionText, toList_conditionText, equal]

end Term

end AutomationScript
