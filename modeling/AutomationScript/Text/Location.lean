/-!
# Positions and locations

A position is a line and a column of a source text, both counted from one.  A location is the
stretch between two positions; its `stop` is just past the last character.  Positions are ordered
by line and then by column, and the union of two locations reaches from the earlier start to the
later stop.
-/

namespace AutomationScript

/-- A line and a column, both counted from one. -/
structure Position where
  line : Nat
  column : Nat
deriving DecidableEq, Repr, Inhabited

namespace Position

/-- Whether `p` stands at `q` or before it. -/
def le (p q : Position) : Bool :=
  p.line < q.line || (p.line == q.line && p.column ≤ q.column)

instance : LE Position := ⟨fun p q => p.le q = true⟩

instance (p q : Position) : Decidable (p ≤ q) :=
  inferInstanceAs (Decidable (p.le q = true))

/-- The earlier of two positions. -/
def earlier (p q : Position) : Position :=
  if p ≤ q then p else q

/-- The later of two positions. -/
def later (p q : Position) : Position :=
  if p ≤ q then q else p

end Position

/-- A stretch of source; `stop` is just past its last character. -/
structure Location where
  start : Position
  stop : Position
deriving DecidableEq, Repr, Inhabited

namespace Location

/-- The least location that covers both. -/
def union (a b : Location) : Location where
  start := a.start.earlier b.start
  stop := a.stop.later b.stop

/-- The least location that covers every location present, if there is one. -/
def unionAll (locations : List (Option Location)) : Option Location :=
  locations.foldl
    (fun covered next =>
      match covered, next with
      | none, _ => next
      | some a, some b => some (a.union b)
      | some a, none => some a)
    none

end Location

end AutomationScript
