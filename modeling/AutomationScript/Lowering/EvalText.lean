import AutomationScript.Lowering.Failure
import AutomationScript.Program.Expr
import AutomationScript.Program.Names

/-!
# Text for the runtime

The text form of an expression that the runtime evaluates.  A binary expression that is an operand
of another one stands in parentheses.  A subscript becomes a call, and text in braces stands as it
was written.
-/

namespace AutomationScript

/-- How an operator is spelled in text for the runtime. -/
def Operator.evalSymbol : Operator → String
  | .and => "&&"
  | .or => "||"
  | operator => operator.symbol

namespace Expr

/-- The text of an expression that was written in braces. -/
def inlineEval? : Expr → Option String
  | .subscript base (.ident text _) _ => if base.name = evalName then some text.name else none
  | _ => none

/-- The call that reads a value in the runtime. -/
def callText (base key : String) : String :=
  "_('" ++ base ++ "', '" ++ key ++ "')"

/-- The text of an expression for the runtime; with `wrap`, a binary one is in parentheses. -/
def evalText (wrap : Bool) : Expr → Except Defect String
  | .compound .not [operand] _ => do
    return "!" ++ (← evalText true operand)
  | .compound .not _ _ => .error .notArity
  | .compound operator [left, right] _ => do
    let left ← evalText true left
    let right ← evalText true right
    let text := left ++ " " ++ operator.evalSymbol ++ " " ++ right
    return if wrap then "(" ++ text ++ ")" else text
  | .compound operator _ _ => .error (.binaryArity operator)
  | .subscript base (.ident key _) _ =>
    .ok (if base.name = evalName then key.name else callText base.name key.name)
  | .subscript _ _ _ => .error .evalKey
  | .string value _ => .ok ("'" ++ value ++ "'")
  | .number value _ => .ok value.text
  | .boolean value _ => .ok (if value then "true" else "false")
  | .eval text _ => .ok text
  | e => .error (.evalVariant e.variant)

end Expr

end AutomationScript
