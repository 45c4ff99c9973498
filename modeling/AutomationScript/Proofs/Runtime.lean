import AutomationScript.Proofs.Term.Basic

/-!
# Values in the runtime

A runtime gives values to what scripts can refer to and decides comparisons and arithmetic.  Given
one, a term has a value, if its logical operators are applied to booleans only.
-/

namespace AutomationScript

/-- A value of the runtime. -/
inductive Value where
  | string (value : String)
  | number (value : Number)
  | boolean (value : Bool)
deriving DecidableEq, Repr

/-- What the runtime makes of names, texts and operators. -/
structure Runtime where
  /-- The value under a key of a category. -/
  read : (base key : String) → Value
  /-- The value of a number, given as it is written. -/
  numeral : String → Value
  /-- The value of a text that is to be evaluated. -/
  evaluate : String → Value
  compare : Operator → Value → Value → Bool
  calculate : Operator → Value → Value → Value
  /-- Booleans are equal when they are the same. -/
  compare_boolean : ∀ a b, compare .eq (.boolean a) (.boolean b) = (a == b)

namespace Runtime

/-- The value of a binary operator.  The logical ones apply to booleans only. -/
def operate? (r : Runtime) (operator : Operator) (left right : Value) : Option Value :=
  match operator, left, right with
  | .and, .boolean a, .boolean b => some (.boolean (a && b))
  | .or, .boolean a, .boolean b => some (.boolean (a || b))
  | .and, _, _ => none
  | .or, _, _ => none
  | operator, left, right =>
    if operator.isComparison then
      some (.boolean (r.compare operator left right))
    else
      some (r.calculate operator left right)

/-- The value of a negation, which applies to booleans only. -/
def negate? : Value → Option Value
  | .boolean b => some (.boolean !b)
  | _ => none

/-- A runtime that reads values by a given function, takes numbers and texts as they are written and
can only tell whether values are equal. -/
def ofReading (read : String → String → Value) : Runtime where
  read
  numeral := .string
  evaluate := .string
  compare _ left right := decide (left = right)
  calculate _ left _ := left
  compare_boolean a b := by
    cases a <;> cases b <;> rfl

end Runtime

def Term.value? (r : Runtime) : Term → Option Value
  | .string value => some (.string value)
  | .numeral text => some (r.numeral text)
  | .boolean value => some (.boolean value)
  | .call base key => some (r.read base key)
  | .raw text => some (r.evaluate text)
  | .negation operand => operand.value? r >>= Runtime.negate?
  | .binary operator left right => do
    r.operate? operator (← left.value? r) (← right.value? r)

namespace Expr

/-- The value of an expression, if it says a term that has one. -/
def value? (r : Runtime) (e : Expr) : Option Value :=
  e.term? >>= Term.value? r

/-- An operator with a value negates the value of its operand or joins those of its two. -/
theorem value?_compound_cases {r : Runtime} {operator : Operator} {args : List Expr}
    {loc : Option Location} {v : Value} (found : value? r (.compound operator args loc) = some v) :
    (∃ operand inner, operator = .not ∧ args = [operand] ∧ operand.value? r = some inner ∧
        Runtime.negate? inner = some v) ∨
      ∃ left right leftValue rightValue, operator ≠ .not ∧ args = [left, right] ∧
        left.value? r = some leftValue ∧ right.value? r = some rightValue ∧
        r.operate? operator leftValue rightValue = some v := by
  obtain ⟨term, termFound, valued⟩ := Option.bind_eq_some_iff.mp found
  rcases term?_compound_cases termFound with
    ⟨operand, inner, isNot, one, operandFound, rfl⟩ |
    ⟨left, right, leftTerm, rightTerm, notNot, two, leftFound, rightFound, rfl⟩
  · obtain ⟨innerValue, innerValued, negated⟩ := Option.bind_eq_some_iff.mp valued
    refine .inl ⟨operand, innerValue, isNot, one, ?_, negated⟩
    rw [value?, operandFound]
    exact innerValued
  · obtain ⟨leftValue, leftValued, valued⟩ := Option.bind_eq_some_iff.mp valued
    obtain ⟨rightValue, rightValued, applied⟩ := Option.bind_eq_some_iff.mp valued
    refine .inr ⟨left, right, leftValue, rightValue, notNot, two, ?_, ?_, applied⟩
    · rw [value?, leftFound]
      exact leftValued
    · rw [value?, rightFound]
      exact rightValued

end Expr

end AutomationScript
