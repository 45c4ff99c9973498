import AutomationScript.Lowering.Aliases
import AutomationScript.Lowering.Blocks
import AutomationScript.Lowering.Chains
import AutomationScript.Lowering.Conditions
import AutomationScript.Lowering.Definitions
import AutomationScript.Lowering.Families
import AutomationScript.Lowering.Lists
import AutomationScript.Lowering.Placeholders
import AutomationScript.Lowering.Types
import AutomationScript.Lowering.Wildcards

/-!
# Lowering steps

`Stage.run` runs one step on a program, and `Stage.hasLeftover` says whether something that the
step removes is still there.
-/

namespace AutomationScript

/-- Whether an expression of the statement has a node that satisfies `test`.  Targets count if
`targets`, and keys of subscripts in values and conditions if `keys`. -/
def Stmt.hasNode (targets keys : Bool) (test : Expr → Bool) : Stmt → Bool
  | .assign target value condition _ =>
    (targets && target.hasNode true test) || value.hasNode keys test ||
      (condition.map (Expr.hasNode keys test)).getD false
  | .openBlock condition _ => condition.hasNode keys test
  | _ => false

/-- Whether the statement defines or uses a name. -/
def Stmt.isDefinitional : Stmt → Bool
  | .defineExpr _ _ _ | .defineBlock _ _ _ | .use _ _ => true
  | _ => false

/-- Whether the statement opens or closes a block. -/
def Stmt.isBlockMark : Stmt → Bool
  | .openBlock _ _ | .closeBlock _ => true
  | _ => false

/-- Whether the statement is a trigger with other than one action. -/
def Stmt.isUnsplit : Stmt → Bool
  | .trigger _ actions _ => actions.length != 1
  | _ => false

def Expr.isPlaceholder : Expr → Bool
  | .placeholder _ => true
  | _ => false

def Expr.isIdent : Expr → Bool
  | .ident _ _ => true
  | _ => false

namespace Stage

/-- Runs the step on a program. -/
def run (registry : Registry) : Stage → List Stmt → Lowering (List Stmt)
  | .definitions => Definition.lower registry
  | .wildcards => Wildcard.lower registry
  | .lists => Lists.lower registry
  | .placeholders => Placeholder.lower
  | .aliases => Alias.lower registry
  | .families => Families.lower registry
  | .blocks => Blocks.lower
  | .conditions => Conditions.lower
  | .types => Types.lower registry
  | .chains => Chains.lower registry

/-- Whether a program still has what the step removes. -/
def hasLeftover (stage : Stage) (program : List Stmt) : Bool :=
  match stage with
  | .definitions => program.any Stmt.isDefinitional
  | .wildcards => program.any (Stmt.hasNode true true Expr.isWildcard)
  | .lists => program.any (Stmt.hasNode true true Expr.isList)
  | .placeholders => program.any (Stmt.hasNode true true Expr.isPlaceholder)
  | .aliases => program.any (Stmt.hasNode false false Expr.isIdent)
  | .blocks => program.any Stmt.isBlockMark
  | .chains => program.any Stmt.isUnsplit
  | .families | .conditions | .types => false

/-- Stops if a program still has what the step removes. -/
def check (stage : Stage) (program : List Stmt) : Except Defect Unit :=
  if stage.hasLeftover program then .error (.leftover stage) else .ok ()

end Stage

end AutomationScript
