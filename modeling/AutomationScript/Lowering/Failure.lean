import AutomationScript.Diagnostic

/-!
# Failures of lowering

Lowering stops for two reasons.  A script can be wrong, which is a diagnostic.  Or a statement
comes to a step that relies on what earlier steps do, and they have not done it: that is a defect
of the program that ran the steps.
-/

namespace AutomationScript

/-- The lowering steps, in the order in which a script goes through them. -/
inductive Stage where
  | definitions
  | wildcards
  | lists
  | placeholders
  | aliases
  | families
  | blocks
  | conditions
  | types
  | chains
deriving DecidableEq, Repr, Inhabited

namespace Stage

/-- The steps in their order. -/
def all : List Stage :=
  [.definitions, .wildcards, .lists, .placeholders, .aliases, .families, .blocks, .conditions,
    .types, .chains]

def name : Stage → String
  | .definitions => "macros"
  | .wildcards => "wildcards"
  | .lists => "folds"
  | .placeholders => "placeholders"
  | .aliases => "aliases"
  | .families => "prefixes"
  | .blocks => "condition_blocks"
  | .conditions => "conditions"
  | .types => "validation"
  | .chains => "triggers"

/-- The step with this name, if there is one. -/
def ofName? (text : String) : Option Stage :=
  all.find? fun stage => stage.name == text

/-- What is gone after the step, in a word; nothing for a step that only replaces. -/
def removes : Stage → String
  | .definitions => "macro statement"
  | .wildcards => "wildcard"
  | .lists => "list"
  | .placeholders => "placeholder"
  | .aliases => "bare identifier"
  | .families => ""
  | .blocks => "condition block marker"
  | .conditions => ""
  | .types => ""
  | .chains => "multi-action trigger"

end Stage

/-- What a step finds although earlier steps should have removed it. -/
inductive Defect where
  /-- What the step removes is still there after it. -/
  | leftover (stage : Stage)
  | unclosedBlock
  | nestedDefinition
  | unbalancedBlock
  | definitionAmongBlocks
  | distributedOperand
  | notArity
  | binaryArity (operator : Operator)
  | evalKey
  | evalVariant (variant : String)
  | typesTarget
  | typesDefinition
  | typesVariant (variant : String)
  | countLiteral
  | emitTarget
  | emitActions
  | emitStatement (variant : String)
  | emitOperator (operator : Operator)
  | emitKey
  | emitOperand (variant : String)
  | emitConstant (variant : String)
  | emitCount
deriving DecidableEq, Repr

private def unreachable (text : String) : String :=
  "internal error: entered unreachable code: " ++ text

def Defect.message : Defect → String
  | .leftover stage => stage.removes ++ " survived the " ++ stage.name ++ " pass"
  | .unclosedBlock => "unclosed condition block reached lowering"
  | .nestedDefinition => unreachable "macro definitions are rejected outside the top level"
  | .unbalancedBlock => unreachable "unbalanced condition block"
  | .definitionAmongBlocks => unreachable "macros are expanded before condition blocks"
  | .distributedOperand => unreachable "distribute called without a list operand"
  | .notArity => unreachable "'not' takes one operand"
  | .binaryArity operator => unreachable ("'" ++ operator.symbol ++ "' takes two operands")
  | .evalKey => unreachable "subscript key is not an identifier after prefix resolution"
  | .evalVariant variant => unreachable (variant ++ " in an eval expression after lowering")
  | .typesTarget => unreachable "setting targets are bare ids after prefix resolution"
  | .typesDefinition => unreachable "macros are expanded before validation"
  | .typesVariant variant => unreachable (variant ++ " reached validation")
  | .countLiteral => unreachable "trigger counts are number literals"
  | .emitTarget => unreachable "setting target is not a resolved id"
  | .emitActions => unreachable "trigger chains are split before code generation"
  | .emitStatement variant => unreachable (variant ++ " reached code generation")
  | .emitOperator operator =>
    unreachable ("'" ++ operator.symbol ++ "' condition passed validation")
  | .emitKey => unreachable "subscript key is not an identifier"
  | .emitOperand variant => unreachable (variant ++ " operand reached code generation")
  | .emitConstant variant => unreachable (variant ++ " is not a constant")
  | .emitCount => unreachable "trigger counts are defaulted before code generation"

/-- Why lowering stops. -/
inductive Failure where
  | refused (diagnostic : Diagnostic)
  | defect (defect : Defect)
deriving DecidableEq, Repr

/-- The result of a lowering step. -/
abbrev Lowering :=
  Except Failure

/-- Refuses the script for what stands at `loc`. -/
def refuse {α : Type} (error : SemanticError) (loc : Option Location) : Lowering α :=
  .error (.refused ⟨.semantic error, loc⟩)

/-- Stops for a defect. -/
def broken {α : Type} (defect : Defect) : Lowering α :=
  .error (.defect defect)

end AutomationScript
