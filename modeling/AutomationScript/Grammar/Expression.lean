import AutomationScript.Grammar.Cursor
import AutomationScript.Program.Expr
import AutomationScript.Program.Names

/-!
# The grammar of expressions

Expressions have six levels of operators, from the loosest to the tightest: `or`, `and`, `not`,
comparisons, sums and products.  All binary operators associate to the left.  Each level is a
reader made from the reader of the next tighter one, and the tightest operands are read by
`primary`, which comes back to the loosest level inside parentheses and to sums inside lists.

Loops and nesting are bounded by the number of tokens at hand, since each turn consumes one.
-/

namespace AutomationScript

/-- An expression and the stretch of source it was read from, parentheses and brackets around it
included. -/
structure Phrase where
  expr : Expr
  loc : Location
deriving Inhabited

namespace Phrase

/-- A phrase whose expression covers just the stretch it was read from. -/
def exact (node : Option Location → Expr) (loc : Location) : Phrase :=
  ⟨node (some loc), loc⟩

def binary (operator : Operator) (left right : Phrase) : Phrase :=
  exact (.compound operator [left.expr, right.expr]) (left.loc.union right.loc)

end Phrase

namespace Grammar

open Reader

/-- Operators and operands after the first operand of a level, applied from the left. -/
def chain (operand : Reader Phrase) (operator? : Token → Option Operator) :
    (fuel : Nat) → Phrase → Reader Phrase
  | 0, left => pure left
  | fuel + 1, left => do
    match operator? (← peek) with
    | none => return left
    | some operator =>
      discard advance
      let right ← operand
      chain operand operator? fuel (Phrase.binary operator left right)

/-- Operands with binary operators between them. -/
def level (operator? : Token → Option Operator) (operand : Reader Phrase) : Reader Phrase := do
  let left ← operand
  chain operand operator? (← get).length left

def orOperator? : Token → Option Operator
  | .orWord => some .or
  | _ => none

def andOperator? : Token → Option Operator
  | .andWord => some .and
  | _ => none

def comparisonOperator? : Token → Option Operator
  | .eqEq => some .eq
  | .ne => some .ne
  | .lt => some .lt
  | .le => some .le
  | .gt => some .gt
  | .ge => some .ge
  | _ => none

def sumOperator? : Token → Option Operator
  | .plus => some .add
  | .minus => some .sub
  | _ => none

def productOperator? : Token → Option Operator
  | .star => some .mul
  | .slash => some .div
  | _ => none

/-- An operand with any number of `not` before it. -/
def negations (operand : Reader Phrase) : (fuel : Nat) → Reader Phrase
  | 0 => operand
  | fuel + 1 => do
    if (← peek) = .notWord then
      let start ← advance
      let inner ← negations operand fuel
      return Phrase.exact (.compound .not [inner.expr]) (start.union inner.loc)
    else
      operand

def negation (operand : Reader Phrase) : Reader Phrase := do
  negations operand (← get).length

def product (operand : Reader Phrase) : Reader Phrase :=
  level productOperator? operand

def sum (operand : Reader Phrase) : Reader Phrase :=
  level sumOperator? (product operand)

def comparison (operand : Reader Phrase) : Reader Phrase :=
  level comparisonOperator? (sum operand)

/-- A whole expression whose tightest operands are read by `operand`. -/
def disjunction (operand : Reader Phrase) : Reader Phrase :=
  level orOperator? (level andOperator? (negation (comparison operand)))

/-- What may separate two elements of a list, and the fold it asks for. -/
def separator? : Token → Option (Option Fold)
  | .comma => some none
  | .andWord => some (some .and)
  | .orWord => some (some .or)
  | _ => none

/-- An element of a list: a wildcard, a placeholder or a sum. -/
def element (operand : Reader Phrase) : Reader Expr := do
  match ← peek with
  | .star => return .wildcard (some (← advance))
  | .ellipsis => return .placeholder (some (← advance))
  | _ => return (← sum operand).expr

/-- The elements of a list, the fold that its separators ask for, and their number. -/
structure ListBody where
  values : List Expr
  fold : Option Fold
  separators : Nat

/-- Elements and separators up to the closing bracket.  A separator may stand after the last
element, and all that ask for a fold ask for the same. -/
def elements (operand : Reader Phrase) : (fuel : Nat) → ListBody → Reader ListBody
  | 0, body => pure body
  | fuel + 1, body => do
    let value ← element operand
    let body := { body with values := body.values ++ [value] }
    match separator? (← peek) with
    | none => return body
    | some asked =>
      let loc ← advance
      if asked.isSome && body.fold.isSome && asked != body.fold then
        fail .mixedSeparators loc
      let body := { body with fold := asked.or body.fold, separators := body.separators + 1 }
      if (← peek) = .rightBracket then
        return body
      else
        elements operand fuel body

/-- A list in brackets.  One element without a separator stands for itself. -/
def bracketed (operand : Reader Phrase) : Reader Phrase := do
  let opening ← expect .leftBracket
  if (← peek) = .rightBracket then
    fail .emptyList (opening.union (← here))
  let body ← elements operand (← get).length ⟨[], none, 0⟩
  let loc := opening.union (← expect .rightBracket)
  match body.separators, body.values with
  | 0, [single] => return ⟨single, loc⟩
  | _, values => return Phrase.exact (.list values body.fold) loc

/-- The key after a dot. -/
def dottedKey : Reader Phrase := do
  let token ← peek
  let loc ← here
  match token with
  | .star => return Phrase.exact .wildcard (← advance)
  | .ellipsis => return Phrase.exact .placeholder (← advance)
  | .ident name => return Phrase.exact (.ident ⟨name, some loc⟩) (← advance)
  | found => fail (.expectedIdentifier found) loc

/-- A name, with a subscript if one follows. -/
def reference (operand : Reader Phrase) : Reader Phrase := do
  let (name, loc) ← expectIdent
  let base : Ident := ⟨name, some loc⟩
  match ← peek with
  | .dot =>
    discard advance
    let key ← dottedKey
    return Phrase.exact (.subscript base key.expr) (loc.union key.loc)
  | .leftBracket =>
    let key ← bracketed operand
    return Phrase.exact (.subscript base key.expr) (loc.union key.loc)
  | _ => return Phrase.exact (.ident base) loc

/-- An operand without operators, nested at most `depth` deep. -/
def primary : (depth : Nat) → Reader Phrase
  | 0 => unexpected
  | depth + 1 => do
    let loc ← here
    match ← peek with
    | .number value => return Phrase.exact (.number value) (← advance)
    | .minus =>
      match ← peekSecond with
      | .number value =>
        discard advance
        let stop ← advance
        return Phrase.exact (.number value.negate) (loc.union stop)
      | _ => unexpected
    | .string value => return Phrase.exact (.string value) (← advance)
    | .on => return Phrase.exact (.boolean true) (← advance)
    | .off => return Phrase.exact (.boolean false) (← advance)
    | .eval text =>
      let loc ← advance
      let key := Expr.ident ⟨text, some loc⟩ (some loc)
      return Phrase.exact (.subscript ⟨evalName, some loc⟩ key) loc
    | .leftParen =>
      discard advance
      let inner ← disjunction (primary depth)
      let closing ← expect .rightParen
      return ⟨inner.expr, loc.union closing⟩
    | .leftBracket => bracketed (primary depth)
    | .ident _ => reference (primary depth)
    | _ => unexpected

/-- An expression. -/
def expression : Reader Phrase := do
  disjunction (primary (← get).length)

/-- The target of an assignment: a name, with a subscript if one follows. -/
def target : Reader Phrase := do
  reference (primary (← get).length)

end Grammar

end AutomationScript
