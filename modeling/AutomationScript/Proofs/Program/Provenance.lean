import AutomationScript.Program.Provenance
import Mathlib.Data.List.Induction
import Mathlib.Logic.Relation

/-!
# Locations in a record of provenance

A node that gets an entry has a location from then on, whatever is recorded later (`Settled.apply`):
the links between derived nodes form no circle, and no chain of them is longer than the record.
-/

namespace AutomationScript

open List

theorem Location.isSome_unionAll_iff (locations : List (Option Location)) :
    (unionAll locations).isSome ↔ ∃ location, some location ∈ locations := by
  induction locations using List.reverseRecOn with
  | nil => simp [unionAll]
  | append_singleton front last ih =>
    generalize covered : unionAll front = found at ih
    rw [unionAll] at covered
    rw [unionAll, foldl_append, covered]
    cases found <;> cases last <;> simp_all

/-- Where an origin stands, if the locations of nodes are `known`. -/
def Origin.place? (known : Nat → Option Location) : Origin → Option Location
  | .source location => some location
  | .derivedFrom node => known node

/-- The location that a step offers to a node. -/
def ProvenanceStep.placeOf (known : Nat → Option Location) (node : Nat) :
    ProvenanceStep → Option Location
  | .locate placed location => if node = placed then some location else none
  | .derive placed source => if node = placed then known source else none
  | .merge placed locations => if node = placed then Location.unionAll locations else none

namespace Provenance

variable {record later : Provenance}
variable {steps node : Nat} {location : Location}

theorem entryOf?_enter (record : Provenance) (node : Nat) (origin : Origin) (tested : Nat) :
    (record.enter node origin).entryOf? tested =
      (record.entryOf? tested).or (if tested = node then some origin else none) := by
  cases taken : record.entryOf? node with
  | some old =>
    rw [enter, taken, Option.isSome_some, if_pos rfl]
    by_cases same : tested = node
    · rw [same, taken, Option.some_or]
    · rw [if_neg same, Option.or_none]
  | none =>
    rw [enter, taken, Option.isSome_none, if_neg Bool.false_ne_true, entryOf?, lookup_append]
    by_cases same : tested = node
    · rw [same, if_pos rfl, lookup_cons_self]
      rfl
    · have other : (tested == node) = false := beq_eq_false_iff_ne.mpr same
      rw [if_neg same, lookup_cons, other]
      rfl

/-! ## Following entries -/

theorem follow_of_le
    (kept : ∀ node origin, record.entryOf? node = some origin → later.entryOf? node = some origin)
    {more : Nat} (atMost : steps ≤ more) (found : record.follow steps node = some location) :
    later.follow more node = some location := by
  induction steps generalizing more node with
  | zero => cases found
  | succ steps ih =>
    obtain ⟨more, rfl⟩ := Nat.exists_eq_add_of_le' (Nat.zero_lt_of_lt atMost)
    rw [follow] at found ⊢
    cases entry : record.entryOf? node with
    | none => rw [entry] at found; cases found
    | some origin =>
      rw [kept node origin entry]
      rw [entry] at found
      cases origin with
      | source place => exact found
      | derivedFrom source => exact ih (Nat.le_of_succ_le_succ atMost) found

theorem follow_eq_of_source (entry : record.entryOf? node = some (.source location)) (steps : Nat) :
    record.follow (steps + 1) node = some location := by
  rw [follow, entry]

theorem follow_eq_of_derivedFrom {source : Nat}
    (entry : record.entryOf? node = some (.derivedFrom source)) (steps : Nat) :
    record.follow (steps + 1) node = record.follow steps source := by
  rw [follow, entry]

theorem isSome_entryOf?_of_follow (found : record.follow steps node = some location) :
    (record.entryOf? node).isSome := by
  cases steps with
  | zero => cases found
  | succ steps =>
    rw [follow] at found
    cases entry : record.entryOf? node with
    | none => rw [entry] at found; cases found
    | some origin => rfl

/-- Every node with an entry has a location. -/
def Settled (record : Provenance) : Prop :=
  ∀ node, (record.entryOf? node).isSome → (record.locationOf node).isSome

/-- The bound on the number of steps cuts no chain short. -/
theorem Settled.locationOf_eq_some (settled : record.Settled)
    (found : record.follow steps node = some location) :
    record.locationOf node = some location := by
  obtain ⟨other, foundOther⟩ :=
    Option.isSome_iff_exists.mp (settled node (isSome_entryOf?_of_follow found))
  have longer := follow_of_le (fun _ _ => id) (Nat.le_add_right steps (record.entries.length + 1)) found
  rw [locationOf] at foundOther ⊢
  rw [foundOther, ← longer]
  exact (follow_of_le (fun _ _ => id) (Nat.le_add_left _ steps) foundOther).symm

/-! ## One step -/

theorem locationOf_eq_none (absent : record.entryOf? node = none) :
    record.locationOf node = none := by
  rw [locationOf, follow, absent]

theorem length_enter (absent : record.entryOf? node = none) (origin : Origin) :
    (record.enter node origin).entries.length = record.entries.length + 1 := by
  rw [enter, absent, Option.isSome_none, if_neg Bool.false_ne_true, length_append]
  rfl

variable {origin : Origin}

theorem locationOf_enter_self (absent : record.entryOf? node = none)
    (place : origin.place? record.locationOf = some location) :
    (record.enter node origin).locationOf node = some location := by
  have entry : (record.enter node origin).entryOf? node = some origin := by
    rw [entryOf?_enter, absent, if_pos rfl, Option.none_or]
  cases origin with
  | source => rw [← place]; exact follow_eq_of_source entry _
  | derivedFrom source =>
    rw [locationOf, length_enter absent, follow_eq_of_derivedFrom entry]
    refine follow_of_le (fun other origin found => ?_) (Nat.le_refl _) place
    rw [entryOf?_enter, found, Option.some_or]

theorem Settled.locationOf_enter (settled : record.Settled)
    (placed : (origin.place? record.locationOf).isSome) (tested : Nat) :
    (record.enter node origin).locationOf tested = (record.locationOf tested).or
      (if tested = node then origin.place? record.locationOf else none) := by
  cases entry : record.entryOf? tested with
  | some old =>
    obtain ⟨location, found⟩ :=
      Option.isSome_iff_exists.mp (settled tested (Option.isSome_of_eq_some entry))
    rw [found, Option.some_or]
    refine follow_of_le (fun other origin found => ?_) ?_ found
    · rw [entryOf?_enter, found, Option.some_or]
    · rw [enter]
      split <;> simp
  | none =>
    rw [locationOf_eq_none entry, Option.none_or]
    by_cases same : tested = node
    · subst same
      obtain ⟨location, place⟩ := Option.isSome_iff_exists.mp placed
      rw [if_pos rfl, place, locationOf_enter_self entry place]
    · rw [if_neg same]
      refine locationOf_eq_none ?_
      rw [entryOf?_enter, entry, if_neg same, Option.none_or]

theorem Settled.enter (settled : record.Settled)
    (placed : (origin.place? record.locationOf).isSome) : (record.enter node origin).Settled := by
  intro tested entered
  rw [settled.locationOf_enter placed]
  rw [entryOf?_enter] at entered
  by_cases same : tested = node
  · rw [if_pos same, Option.isSome_or, placed, Bool.or_true]
  · rw [if_neg same, Option.or_none] at entered
    rw [if_neg same, Option.or_none, settled tested entered]

/-- A step gives a location to a node that has none, and leaves the other nodes as they are. -/
theorem Settled.apply (settled : record.Settled) (step : ProvenanceStep) :
    (record.apply step).Settled ∧ ∀ node, (record.apply step).locationOf node =
      (record.locationOf node).or (step.placeOf record.locationOf node) := by
  cases step with
  | locate placed location =>
    exact ⟨settled.enter rfl, settled.locationOf_enter rfl⟩
  | merge placed locations =>
    rw [Provenance.apply, merge]
    cases covered : Location.unionAll locations with
    | some location =>
      simp only [ProvenanceStep.placeOf, covered]
      exact ⟨settled.enter rfl, settled.locationOf_enter rfl⟩
    | none => simp [ProvenanceStep.placeOf, covered, settled]
  | derive placed source =>
    rw [Provenance.apply, derive]
    split
    · rename_i known
      have sourcePlaced := settled source known.2
      exact ⟨settled.enter sourcePlaced, settled.locationOf_enter sourcePlaced⟩
    · rename_i unknown
      refine ⟨settled, fun node => ?_⟩
      rw [ProvenanceStep.placeOf]
      by_cases same : node = placed
      · subst same
        rw [if_pos rfl]
        by_cases self : source = node
        · rw [self, Option.or_self]
        · have absent := Option.not_isSome_iff_eq_none.mp fun isSome => unknown ⟨self, isSome⟩
          rw [locationOf_eq_none absent, Option.or_none]
      · rw [if_neg same, Option.or_none]

/-! ## Histories -/

/-- The record after steps that were taken in order from an empty record. -/
def ofSteps (steps : List ProvenanceStep) : Provenance :=
  steps.foldl apply empty

theorem ofSteps_append_singleton (steps : List ProvenanceStep) (step : ProvenanceStep) :
    ofSteps (steps ++ [step]) = (ofSteps steps).apply step := by
  rw [ofSteps, foldl_append]
  rfl

theorem settled_ofSteps (steps : List ProvenanceStep) : (ofSteps steps).Settled := by
  induction steps using List.reverseRecOn with
  | nil => exact fun _ entered => (Bool.false_ne_true entered).elim
  | append_singleton front step ih =>
    rw [ofSteps_append_singleton]
    exact (ih.apply step).1

theorem locationOf_ofSteps_append {steps : List ProvenanceStep}
    (found : (ofSteps steps).locationOf node = some location) (later : List ProvenanceStep) :
    (ofSteps (steps ++ later)).locationOf node = some location := by
  induction later using List.reverseRecOn with
  | nil => rwa [append_nil]
  | append_singleton front step ih =>
    rw [← append_assoc, ofSteps_append_singleton, ((settled_ofSteps _).apply step).2, ih,
      Option.some_or]

/-- A step by which a node gets a location. -/
inductive Places (record : Provenance) (node : Nat) : ProvenanceStep → Prop
  | located (location : Location) : Places record node (.locate node location)
  | merged {locations : List (Option Location)} {location : Location} :
      some location ∈ locations → Places record node (.merge node locations)
  | derived {source : Nat} :
      source ≠ node → (record.locationOf source).isSome → Places record node (.derive node source)

theorem isSome_locationOf_apply_iff (settled : record.Settled) (step : ProvenanceStep)
    (node : Nat) :
    ((record.apply step).locationOf node).isSome ↔
      (record.locationOf node).isSome ∨ record.Places node step := by
  rw [(settled.apply step).2, Option.isSome_or, Bool.or_eq_true]
  constructor
  · rintro (placed | offered)
    · exact .inl placed
    · cases step with
      | locate placed location =>
        rw [ProvenanceStep.placeOf, Option.isSome_ite] at offered
        exact .inr (offered ▸ .located location)
      | merge placed locations =>
        rw [ProvenanceStep.placeOf] at offered
        split at offered
        · rename_i same
          obtain ⟨location, member⟩ := (Location.isSome_unionAll_iff locations).mp offered
          exact .inr (same ▸ .merged member)
        · cases offered
      | derive placed source =>
        rw [ProvenanceStep.placeOf] at offered
        split at offered
        · rename_i same
          by_cases self : source = node
          · exact .inl (self ▸ offered)
          · exact .inr (same ▸ .derived self offered)
        · cases offered
  · rintro (placed | ⟨location⟩ | member | ⟨_, known⟩)
    · exact .inl placed
    · exact .inr (by rw [ProvenanceStep.placeOf, if_pos rfl, Option.isSome_some])
    · refine .inr ?_
      rw [ProvenanceStep.placeOf, if_pos rfl]
      exact (Location.isSome_unionAll_iff _).mpr ⟨_, member⟩
    · exact .inr (by rwa [ProvenanceStep.placeOf, if_pos rfl])

theorem isSome_locationOf_ofSteps_iff (steps : List ProvenanceStep) (node : Nat) :
    ((ofSteps steps).locationOf node).isSome ↔
      ∃ front step, front ++ [step] <+: steps ∧ (ofSteps front).Places node step := by
  induction steps using List.reverseRecOn with
  | nil => simp [ofSteps, empty, locationOf, follow, entryOf?]
  | append_singleton earlier last ih =>
    rw [ofSteps_append_singleton, isSome_locationOf_apply_iff (settled_ofSteps _), ih]
    constructor
    · rintro (⟨front, step, isFront, places⟩ | places)
      · exact ⟨front, step, isFront.trans (prefix_append _ _), places⟩
      · exact ⟨earlier, last, prefix_rfl, places⟩
    · rintro ⟨front, step, isFront, places⟩
      rcases prefix_concat_iff.mp isFront with whole | isFront
      · obtain ⟨rfl, same⟩ := append_inj' whole rfl
        cases same
        exact .inr places
      · exact .inl ⟨front, step, isFront, places⟩

/-- A derived node points to the node it was made from. -/
def Links (record : Provenance) (node source : Nat) : Prop :=
  record.entryOf? node = some (.derivedFrom source)

theorem exists_follow_of_transGen {reached : Nat}
    (path : Relation.TransGen record.Links node reached)
    (found : (record.follow steps node).isSome) :
    ∃ fewer < steps, (record.follow fewer reached).isSome := by
  have one : ∀ {node source steps}, record.Links node source →
      (record.follow steps node).isSome → ∃ fewer < steps, (record.follow fewer source).isSome := by
    intro node source steps link found
    cases steps with
    | zero => cases found
    | succ fewer => exact ⟨fewer, Nat.lt_succ_self fewer, follow_eq_of_derivedFrom link fewer ▸ found⟩
  induction path with
  | single link => exact one link found
  | tail _ link ih =>
    obtain ⟨some, less, found⟩ := ih
    obtain ⟨fewer, lessAgain, found⟩ := one link found
    exact ⟨fewer, Nat.lt_trans lessAgain less, found⟩

/-- Links never lead back to where they start. -/
theorem Settled.not_transGen_links (settled : record.Settled) (node : Nat) :
    ¬ Relation.TransGen record.Links node node := by
  intro circle
  have lost : ∀ steps, ¬ (record.follow steps node).isSome := by
    intro steps
    induction steps using Nat.strongRecOn with
    | ind steps ih =>
      intro found
      obtain ⟨fewer, less, found⟩ := exists_follow_of_transGen circle found
      exact ih fewer less found
  obtain ⟨source, link, -⟩ := Relation.TransGen.head'_iff.mp circle
  exact lost _ (settled node (Option.isSome_of_eq_some link))

/-- After any steps from an empty record: locations are never lost or changed; a node has one
exactly if it was located, merged from some location that is present, or derived from another node
that had a location then; a node whose first entry comes from another node stands where that node
stands; and the links form no circle, so the location that any number of steps would find is found
within the bound. -/
theorem locationOf_ofSteps (steps : List ProvenanceStep) :
    (∀ later node location, (ofSteps steps).locationOf node = some location →
      (ofSteps (steps ++ later)).locationOf node = some location) ∧
    (∀ node, ((ofSteps steps).locationOf node).isSome ↔
      ∃ front step, front ++ [step] <+: steps ∧ (ofSteps front).Places node step) ∧
    (∀ front node source, front ++ [.derive node source] <+: steps →
      (ofSteps front).entryOf? node = none →
      ((ofSteps (front ++ [.derive node source])).entryOf? node).isSome →
      ∃ location, (ofSteps front).locationOf source = some location ∧
        (ofSteps steps).locationOf source = some location ∧
        (ofSteps steps).locationOf node = some location) ∧
    (∀ node, ¬ Relation.TransGen (ofSteps steps).Links node node) ∧
    (∀ node count location, (ofSteps steps).follow count node = some location →
      (ofSteps steps).locationOf node = some location) := by
  have settled := settled_ofSteps steps
  refine ⟨fun later node location found => locationOf_ofSteps_append found later,
    isSome_locationOf_ofSteps_iff steps, ?_, settled.not_transGen_links,
    fun node count location => settled.locationOf_eq_some⟩
  rintro front node source ⟨later, rfl⟩ absent entered
  obtain ⟨location, found⟩ := Option.isSome_iff_exists.mp (settled_ofSteps _ node entered)
  have sourceFound : (ofSteps front).locationOf source = some location := by
    rw [ofSteps_append_singleton, ((settled_ofSteps front).apply _).2, locationOf_eq_none absent,
      Option.none_or, ProvenanceStep.placeOf, if_pos rfl] at found
    exact found
  refine ⟨location, sourceFound, ?_, locationOf_ofSteps_append found later⟩
  rw [List.append_assoc]
  exact locationOf_ofSteps_append sourceFound _

/-- Two nodes are derived from each other, one of them after it was located, and a third one from
the second, which is located once more. -/
theorem locationOf_ofSteps_eachOther :
    let at1 : Location := ⟨⟨1, 1⟩, ⟨1, 4⟩⟩
    let at9 : Location := ⟨⟨9, 9⟩, ⟨9, 9⟩⟩
    let steps : List ProvenanceStep :=
      [.derive 0 1, .locate 0 at1, .derive 1 0, .derive 0 1, .locate 1 at9, .derive 2 1]
    (ofSteps steps).locationOf 2 = some at1 ∧ (ofSteps steps).locationOf 3 = none := by
  intro at1 at9 steps
  obtain ⟨-, -, first, -⟩ := locationOf_ofSteps steps
  obtain ⟨location, before, -, found⟩ :=
    first (steps.take 5) 2 1 (List.prefix_refl steps) (by decide) (by decide)
  have isFirst : (ofSteps (steps.take 5)).locationOf 1 = some at1 := by decide
  cases before.symm.trans isFirst
  exact ⟨found, by decide⟩

end Provenance

end AutomationScript
