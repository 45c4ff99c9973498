import AutomationScript.Lowering.Revision

/-!
# Flattening blocks

An assignment inside blocks gets the conditions of all of them, the outermost first, and its own
condition last: `outer and (inner and own)`.  The marks of the blocks go away.  A trigger cannot
stand inside a block.
-/

namespace AutomationScript

namespace Blocks

/-- Both conditions, over the stretch of source that covers both. -/
def conjoin (outer inner : Expr) : Expr :=
  .compound .and [outer, inner] (Location.unionAll [outer.loc, inner.loc])

/-- A condition under one more block. -/
def under (block : Expr) : Option Expr → Expr
  | none => block
  | some inner => conjoin block inner

/-- A condition under all open blocks, the innermost of which comes first. -/
def underAll (blocks : List Expr) (own : Option Expr) : Option Expr :=
  blocks.foldl (fun inner block => some (under block inner)) own

/-- Flattens statements; `blocks` are the conditions of the open blocks, the innermost first. -/
def flatten (blocks : List Expr) : List Stmt → Lowering (List Stmt)
  | [] => if blocks.isEmpty then pure [] else broken .unclosedBlock
  | .openBlock condition _ :: rest => flatten (condition :: blocks) rest
  | .closeBlock _ :: rest =>
    match blocks with
    | [] => broken .unbalancedBlock
    | _ :: outer => flatten outer rest
  | .assign target value condition tag :: rest => do
    let first :=
      if blocks.isEmpty then
        Stmt.assign target value condition tag
      else
        .assign target value (underAll blocks condition) tag.rebuilt
    let others ← flatten blocks rest
    return first :: others
  | .trigger condition actions tag :: rest =>
    if blocks.isEmpty then do
      let others ← flatten blocks rest
      return .trigger condition actions tag :: others
    else
      refuse .triggerInBlock tag.loc
  | .defineExpr _ _ _ :: _ => broken .definitionAmongBlocks
  | .defineBlock _ _ _ :: _ => broken .definitionAmongBlocks
  | .use _ _ :: _ => broken .definitionAmongBlocks

/-- Flattens all blocks of a program. -/
def lower : List Stmt → Lowering (List Stmt) :=
  flatten []

end Blocks

end AutomationScript
