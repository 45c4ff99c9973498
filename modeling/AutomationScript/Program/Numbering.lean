import AutomationScript.Program.Stmt

/-!
# Numbered programs

`numberFrom` gives every statement of a program a number of its own, the statements inside
definitions included.  `keptAt` reads off, for every statement of a lowered program, at which
place of the program before it the same statement stood.  `renumber` numbers a lowered program
afresh: two statements get the same number exactly when they are the same statement.
-/

namespace AutomationScript

mutual

/-- The statement, numbered from `next` on, and the first number that is left. -/
def Stmt.numberFrom (next : Nat) : Stmt → Stmt × Nat
  | .defineBlock name body tag =>
    let (body, left) := numberFrom (next + 1) body
    (.defineBlock name body { tag with mark := some ⟨next, false⟩ }, left)
  | s => (s.numbered next, next + 1)

/-- The statements, numbered from `next` on, and the first number that is left. -/
def numberFrom (next : Nat) : List Stmt → List Stmt × Nat
  | [] => ([], next)
  | s :: rest =>
    let (first, left) := s.numberFrom next
    let (others, left) := numberFrom left rest
    (first :: others, left)

end

/-- The statements with a number for each. -/
def numberStatements (program : List Stmt) : List Stmt :=
  (numberFrom 0 program).1

/-- Whether two statements are the same one: neither is rebuilt, and their numbers agree. -/
def Stmt.isSame (s t : Stmt) : Bool :=
  match s.mark, t.mark with
  | some a, some b => !a.rebuilt && !b.rebuilt && a.number == b.number
  | _, _ => false

/-- For every statement of `after`, the first place of `before` at which it stood, if any. -/
def keptAt (before after : List Stmt) : List (Option Nat) :=
  after.map fun s => before.findIdx? s.isSame

/-- The statements numbered afresh by their places.  A statement that stands at several places
takes the number of the first. -/
def renumber (program : List Stmt) : List Stmt :=
  program.mapIdx fun i s => s.numbered ((program.findIdx? s.isSame).getD i)

end AutomationScript
