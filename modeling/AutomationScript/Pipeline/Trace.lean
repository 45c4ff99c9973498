import AutomationScript.Pipeline.Compile
import AutomationScript.Program.Numbering

/-!
# Tracing the lowering steps

`trace` runs chosen steps in a chosen order and keeps every program on the way.  `traceKept` runs
all steps on a numbered program and reports which statements each of them hands on; it then runs
each step once more on the lowered program.
-/

namespace AutomationScript

/-- A step of a trace: a lowering step, or making the document. -/
inductive TraceStep where
  | stage (lowering : Stage)
  | emit
deriving DecidableEq, Repr

namespace TraceStep

def emitName : String := "codegen"

def name : TraceStep → String
  | .stage lowering => lowering.name
  | .emit => emitName

/-- The step with this name, if there is one. -/
def ofName? (text : String) : Option TraceStep :=
  if text = emitName then some .emit else (Stage.ofName? text).map .stage

/-- All lowering steps and then the document. -/
def all : List TraceStep :=
  Stage.all.map .stage ++ [.emit]

end TraceStep

/-- What a step of a trace gives. -/
inductive TraceResult where
  | lowered (program : List Stmt)
  | document (document : Document)
  | refused (diagnostic : Diagnostic)
  | defect (defect : Defect)
deriving Repr

/-- Runs the steps until one fails.  With `checks`, a step whose result still has what the step
removes is followed by that defect, and the trace ends there too. -/
def trace (registry : Registry) (checks : Bool) (program : List Stmt) :
    List TraceStep → List (TraceStep × TraceResult)
  | [] => []
  | .emit :: _ =>
    match emit program with
    | .ok document => [(.emit, .document document)]
    | .error defect => [(.emit, .defect defect)]
  | .stage stage :: rest =>
    match stage.run registry program with
    | .error (.refused diagnostic) => [(.stage stage, .refused diagnostic)]
    | .error (.defect defect) => [(.stage stage, .defect defect)]
    | .ok lowered =>
      let here := (TraceStep.stage stage, TraceResult.lowered lowered)
      match checks, stage.check lowered with
      | true, .error defect => [here, (.stage stage, .defect defect)]
      | _, _ => here :: trace registry checks lowered rest

/-- For each statement after a step, the place of the same statement before it, if there is one. -/
abbrev Kept :=
  List (Option Nat)

/-- Which statements each step hands on, up to the first step that fails, and the lowered program
if none does. -/
def traceRound (registry : Registry) (program : List Stmt) :
    List Stage → List (Stage × Except Failure Kept) × Option (List Stmt)
  | [] => ([], some program)
  | stage :: rest =>
    match stage.run registry program with
    | .error failure => ([(stage, .error failure)], none)
    | .ok lowered =>
      let kept := keptAt program lowered
      let (others, final) := traceRound registry (renumber lowered) rest
      ((stage, .ok kept) :: others, final)

/-- Which statements of a program a step hands on. -/
def keptBy (registry : Registry) (program : List Stmt) (stage : Stage) : Except Failure Kept := do
  let lowered ← stage.run registry program
  return keptAt program lowered

/-- Which statements all steps hand on, and which each of them hands on of the lowered program. -/
def traceKept (registry : Registry) (program : List Stmt) :
    List (Stage × Except Failure Kept) × Option (List (Stage × Except Failure Kept)) :=
  let (first, final) := traceRound registry (numberStatements program) Stage.all
  let again := final.map fun lowered =>
    Stage.all.map fun stage => (stage, keptBy registry lowered stage)
  (first, again)

end AutomationScript
