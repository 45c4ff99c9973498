import AutomationScript.Document.Emit
import AutomationScript.Grammar.Statement
import AutomationScript.Pipeline.Stage

/-!
# Compiling scripts

A script is parsed, goes through the lowering steps and becomes a document.  After each step the
program is checked for what the step removes.  Errors in the form of a script are reported
together; of errors in its meaning the first is reported.
-/

namespace AutomationScript

/-- Why a script has no document. -/
inductive CompileFailure where
  | refused (diagnostics : List Diagnostic)
  | defect (defect : Defect)
deriving DecidableEq, Repr

/-- The failure of a lowering step as the failure of a script. -/
def CompileFailure.ofFailure : Failure → CompileFailure
  | .refused reason => .refused [reason]
  | .defect found => .defect found

/-- Runs one lowering step and checks the result. -/
def Stage.runChecked (registry : Registry) (stage : Stage) (program : List Stmt) :
    Lowering (List Stmt) := do
  let lowered ← stage.run registry program
  match stage.check lowered with
  | .ok () => return lowered
  | .error defect => broken defect

/-- Runs several lowering steps, one after the other. -/
def lowerThrough (registry : Registry) : List Stage → List Stmt → Lowering (List Stmt)
  | [], program => pure program
  | stage :: rest, program => do
    lowerThrough registry rest (← stage.runChecked registry program)

/-- Runs all lowering steps. -/
def lowerProgram (registry : Registry) (program : List Stmt) : Lowering (List Stmt) :=
  lowerThrough registry Stage.all program

/-- The document of a program. -/
def compileProgram (registry : Registry) (program : List Stmt) : Except CompileFailure Document :=
  match lowerProgram registry program with
  | .error failure => .error (.ofFailure failure)
  | .ok lowered =>
    match emit lowered with
    | .ok document => .ok document
    | .error defect => .error (.defect defect)

/-- The document of a script. -/
def compile (registry : Registry) (source : String) : Except CompileFailure Document :=
  match parse source with
  | (program, []) => compileProgram registry program
  | (_, errors) => .error (.refused errors)

end AutomationScript
