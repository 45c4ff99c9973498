import AutomationScript.Lowering.EvalText

/-!
# Terms

A term is what an expression says once every name in it is resolved: the tree of its operators and
operands.  Numbers are kept as they are written, since that is all that the runtime gets to see.  An
expression has a text exactly when it has a term (`Expr.evalText_eq_ok_iff`).
-/

namespace AutomationScript

inductive Term where
  | string (value : String)
  | numeral (text : String)
  | boolean (value : Bool)
  /-- `base[key]`, which the runtime reads by a call. -/
  | call (base key : String)
  /-- Text that was written in braces. -/
  | raw (text : String)
  | negation (operand : Term)
  | binary (operator : Operator) (left right : Term)
deriving DecidableEq, Repr

namespace Term

/-- The text of a term for the runtime; with `wrap`, a binary one is in parentheses. -/
def text (wrap : Bool) : Term → String
  | .string value => "'" ++ value ++ "'"
  | .numeral text => text
  | .boolean value => if value then "true" else "false"
  | .call base key => Expr.callText base key
  | .raw text => text
  | .negation operand => "!" ++ operand.text true
  | .binary operator left right =>
    let text := left.text true ++ " " ++ operator.evalSymbol ++ " " ++ right.text true
    if wrap then "(" ++ text ++ ")" else text

def isBinary : Term → Bool
  | .binary _ _ _ => true
  | _ => false

def isLeaf : Term → Bool
  | .negation _ => false
  | .binary _ _ _ => false
  | _ => true

theorem not_isBinary_of_isLeaf {term : Term} (leaf : term.isLeaf = true) :
    term.isBinary = false := by
  cases term with
  | binary operator left right => cases leaf
  | _ => rfl

theorem text_eq_text_of_not_isBinary {term : Term} (single : term.isBinary = false)
    (wrap wrap' : Bool) : term.text wrap = term.text wrap' := by
  cases term with
  | binary operator left right =>
    simp [isBinary] at single
  | _ =>
    rfl

end Term

namespace Expr

/-- The term that an expression says, if its names are resolved and its operators have the number
of operands that they take. -/
def term? : Expr → Option Term
  | .string value _ => some (.string value)
  | .number value _ => some (.numeral value.text)
  | .boolean value _ => some (.boolean value)
  | .eval text _ => some (.raw text)
  | .subscript base (.ident key _) _ =>
    some (if base.name = evalName then .raw key.name else .call base.name key.name)
  | .compound .not [operand] _ => do
    return .negation (← operand.term?)
  | .compound .not _ _ => none
  | .compound operator [left, right] _ => do
    let left ← left.term?
    let right ← right.term?
    return .binary operator left right
  | _ => none

theorem term?_not (operand : Expr) (loc : Option Location) :
    term? (.compound .not [operand] loc) = operand.term?.map .negation := by
  rw [term?]
  cases operand.term? <;> rfl

theorem term?_binary {operator : Operator} (notNot : operator ≠ .not) (left right : Expr)
    (loc : Option Location) :
    term? (.compound operator [left, right] loc) =
      left.term?.bind fun left => right.term?.map (.binary operator left) := by
  rw [term?]
  · cases left.term? <;> cases right.term? <;> rfl
  · exact notNot

theorem term?_compound_cases {operator : Operator} {args : List Expr} {loc : Option Location}
    {term : Term} (found : term? (.compound operator args loc) = some term) :
    (∃ operand inner, operator = .not ∧ args = [operand] ∧ operand.term? = some inner ∧
        term = .negation inner) ∨
      ∃ left right leftTerm rightTerm, operator ≠ .not ∧ args = [left, right] ∧
        left.term? = some leftTerm ∧ right.term? = some rightTerm ∧
        term = .binary operator leftTerm rightTerm := by
  by_cases isNot : operator = .not
  · subst isNot
    match args, found with
    | [operand], found =>
      rw [term?_not] at found
      obtain ⟨inner, operandFound, rfl⟩ := Option.map_eq_some_iff.mp found
      exact .inl ⟨operand, inner, rfl, rfl, operandFound, rfl⟩
    | [], found => cases found
    | _ :: _ :: _, found => cases found
  · match args, found with
    | [left, right], found =>
      rw [term?_binary isNot] at found
      obtain ⟨leftTerm, leftFound, found⟩ := Option.bind_eq_some_iff.mp found
      obtain ⟨rightTerm, rightFound, rfl⟩ := Option.map_eq_some_iff.mp found
      exact .inr ⟨left, right, leftTerm, rightTerm, isNot, rfl, leftFound, rightFound, rfl⟩
    | [], found => cases operator <;> cases found
    | [_], found =>
      cases operator with
      | not => exact absurd rfl isNot
      | _ => cases found
    | _ :: _ :: _ :: _, found => cases operator <;> cases found

/-- An expression has a text exactly when it has a term, and the text is that of the term. -/
theorem toOption_evalText (wrap : Bool) (e : Expr) :
    (e.evalText wrap).toOption = e.term?.map (Term.text wrap) := by
  induction wrap, e using Expr.evalText.induct with
  | case1 wrap operand loc ih =>
    rw [term?_not]
    rw [evalText]
    cases inner : operand.evalText true <;> cases found : operand.term? <;>
      simp_all [Except.toOption, Term.text, bind, Except.bind, pure, Except.pure]
  | case2 wrap args loc notOne =>
    rw [evalText, term?]
    · rfl
    · exact notOne
    · exact notOne
  | case3 wrap operator left right loc notNot ihLeft ihRight =>
    rw [term?_binary notNot, evalText]
    · cases leftText : left.evalText true <;> cases leftFound : left.term? <;>
        cases rightText : right.evalText true <;> cases rightFound : right.term? <;>
          simp_all [Except.toOption, Term.text, bind, Except.bind, pure, Except.pure]
    · exact notNot
  | case4 wrap operator args loc notOne notNot notTwo =>
    have noTerm : term? (.compound operator args loc) = none := by
      rw [term?] <;> simp_all
    rw [evalText, noTerm]
    · rfl
    · exact notOne
    · exact notNot
    · exact notTwo
  | case5 wrap base key keyLoc loc =>
    rw [evalText, term?]
    by_cases inBraces : base.name = evalName <;>
      simp [Except.toOption, Term.text, inBraces]
  | case6 wrap base key loc notIdent =>
    have noTerm : term? (.subscript base key loc) = none := by
      rw [term?] <;> simp_all
    rw [evalText, noTerm]
    · rfl
    · exact notIdent
  | case11 wrap e =>
    cases e <;> simp_all [Except.toOption, evalText, term?]
  | _ => rfl

theorem evalText_eq_ok_iff {e : Expr} {wrap : Bool} {text : String} :
    e.evalText wrap = .ok text ↔ ∃ term, e.term? = some term ∧ term.text wrap = text := by
  have same := toOption_evalText wrap e
  cases spelled : e.evalText wrap with
  | error defect =>
    rw [spelled] at same
    have none : e.term? = none := Option.map_eq_none_iff.mp same.symm
    simp [none]
  | ok found =>
    rw [spelled] at same
    obtain ⟨term, termFound, textFound⟩ := Option.map_eq_some_iff.mp same.symm
    simp [termFound, textFound]

end Expr

end AutomationScript
