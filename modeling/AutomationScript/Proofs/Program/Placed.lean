import AutomationScript.Diagnostic
import AutomationScript.Proofs.Program.Matching

/-!
# Known places

A program is placed if every node, name and statement of it has a location with some property: it
then matches itself with known places only.
-/

namespace AutomationScript

/-- The location is known and satisfies `P`. -/
def IsPlaced (P : Location → Prop) (loc : Option Location) : Prop :=
  ∃ known, loc = some known ∧ P known

theorem IsPlaced.of_some {P : Location → Prop} {loc : Location} (holds : P loc) :
    IsPlaced P (some loc) :=
  ⟨loc, rfl, holds⟩

def UnionClosed (P : Location → Prop) : Prop :=
  ∀ {a b : Location}, P a → P b → P (a.union b)

theorem IsPlaced.unionAll {P : Location → Prop} (closed : UnionClosed P) {a b : Option Location}
    (aPlaced : IsPlaced P a) (bPlaced : IsPlaced P b) : IsPlaced P (Location.unionAll [a, b]) := by
  obtain ⟨first, rfl, firstHolds⟩ := aPlaced
  obtain ⟨second, rfl, secondHolds⟩ := bPlaced
  exact ⟨first.union second, rfl, closed firstHolds secondHolds⟩

/-- The cause of the diagnostic is of a kind, and its location satisfies `P`. -/
structure Diagnostic.Placed (kind : Cause → Prop) (P : Location → Prop) (d : Diagnostic) :
    Prop where
  cause : kind d.cause
  location : IsPlaced P d.location

namespace Cause

def IsLexical (cause : Cause) : Prop :=
  ∃ error, cause = .lexical error

def IsGrammar (cause : Cause) : Prop :=
  ∃ error, cause = .grammar error

def IsSemantic (cause : Cause) : Prop :=
  ∃ error, cause = .semantic error

end Cause

/-! ## Programs -/

/-- Nothing differs, and all places are known and satisfy `P`. -/
def Slack.placed (P : Location → Prop) (closed : UnionClosed P) : Slack where
  places loc loc' := loc' = loc ∧ IsPlaced P loc
  lenient := False
  union first second := ⟨by rw [first.1, second.1], first.2.unionAll closed second.2⟩
  anywhere := False.elim

end AutomationScript
