import AutomationScript.Text.Location

/-!
# Provenance

A record of how nodes came about.  A node is read from the source, derived from another node, or
merged from several places.  The first entry of a node stands for good, and a node is derived only
from another node that has an entry.  The location of a derived node is found by following the
entries.
-/

namespace AutomationScript

/-- How a node came about. -/
inductive Origin where
  | source (location : Location)
  | derivedFrom (node : Nat)
deriving DecidableEq, Repr

/-- The entries of the nodes recorded so far. -/
structure Provenance where
  entries : List (Nat × Origin)
deriving DecidableEq, Repr

namespace Provenance

def empty : Provenance :=
  ⟨[]⟩

def entryOf? (record : Provenance) (node : Nat) : Option Origin :=
  record.entries.lookup node

def enter (record : Provenance) (node : Nat) (origin : Origin) : Provenance :=
  if (record.entryOf? node).isSome then record else ⟨record.entries ++ [(node, origin)]⟩

/-- Records that a node was read at a location. -/
def locate (record : Provenance) (node : Nat) (location : Location) : Provenance :=
  record.enter node (.source location)

/-- Records that a node was made from another one, which must have an entry. -/
def derive (record : Provenance) (node source : Nat) : Provenance :=
  if source ≠ node ∧ (record.entryOf? source).isSome then
    record.enter node (.derivedFrom source)
  else
    record

/-- Records that a node was made from what stands at several places, if any is known. -/
def merge (record : Provenance) (node : Nat) (locations : List (Option Location)) : Provenance :=
  match Location.unionAll locations with
  | some location => record.enter node (.source location)
  | none => record

/-- Follows at most `steps` entries from a node to a location. -/
def follow (record : Provenance) : (steps : Nat) → (node : Nat) → Option Location
  | 0, _ => none
  | steps + 1, node =>
    match record.entryOf? node with
    | none => none
    | some (.source location) => some location
    | some (.derivedFrom node) => record.follow steps node

/-- The location of a node, if it has one.  No chain of entries is longer than the record. -/
def locationOf (record : Provenance) (node : Nat) : Option Location :=
  record.follow (record.entries.length + 1) node

end Provenance

/-- One step in the making of a record. -/
inductive ProvenanceStep where
  | locate (node : Nat) (location : Location)
  | derive (node source : Nat)
  | merge (node : Nat) (locations : List (Option Location))
deriving DecidableEq, Repr

namespace Provenance

def apply (record : Provenance) : ProvenanceStep → Provenance
  | .locate node location => record.locate node location
  | .derive node source => record.derive node source
  | .merge node locations => record.merge node locations

/-- The records after each of the steps. -/
def run (record : Provenance) : List ProvenanceStep → List Provenance
  | [] => []
  | step :: steps =>
    let next := record.apply step
    next :: next.run steps

end Provenance

end AutomationScript
