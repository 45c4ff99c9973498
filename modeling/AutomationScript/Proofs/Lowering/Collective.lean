import AutomationScript.Lowering.Lists
import AutomationScript.Proofs.Program.Forms
import AutomationScript.Proofs.Program.Unlocated
import AutomationScript.Proofs.Runtime
import Mathlib.Data.List.Induction

/-!
# The collective reading of lists

A list stands for the family of its elements, and whatever is said of a list is said of each of
them.  Where a family of booleans would stand, all or some of them are meant, as the list says.
`Expr.collective` is that reading, for any way to read expressions without lists: as expressions or
as values.  The value of the one is the other (`collective_map`).
-/

namespace AutomationScript

open List

/-- What an expression stands for: one thing, or a family of several. -/
inductive Collective (α : Type) where
  | one (value : α)
  | family (members : List α) (fold : Option Fold)
deriving DecidableEq, Repr

namespace Collective

variable {α β : Type}

def map (f : α → β) : Collective α → Collective β
  | .one value => .one (f value)
  | .family members fold => .family (members.map f) fold

def one? : Collective α → Option α
  | .one value => some value
  | .family _ _ => none

def family? : Collective α → Option (List α × Option Fold)
  | .one _ => none
  | .family members fold => some (members, fold)

/-- The one thing, or else the given member of the family. -/
def orMember (member : α) : Collective α → α
  | .one value => value
  | .family _ _ => member

end Collective

/-- How expressions without lists are read. -/
structure Reading (α : Type) where
  /-- Literals, names, texts and references. -/
  leaf : Expr → α
  operate : Operator → List α → α
  /-- All of several members, or some of them; `first` is the first of them. -/
  gather : Fold → (first : α) → (rest : List α) → α

namespace Reading

variable {α : Type}

/-- A family of booleans as one, if its list says how. -/
def gather? (reading : Reading α) (fold : Option Fold) : List α → Option (Collective α)
  | [] => none
  | first :: rest => fold.map fun fold => .one (reading.gather fold first rest)

/-- An operator over what its operands stand for: the family of the results, if one of the operands
is a family.  Over two families it means nothing. -/
def distribute (reading : Reading α) (operator : Operator) (args : List (Collective α)) :
    Option (Collective α) :=
  match args.mapM Collective.one? with
  | some values => some (.one (reading.operate operator values))
  | none =>
    match args.filterMap Collective.family? with
    | [(members, fold)] =>
      let results := members.map fun member =>
        reading.operate operator (args.map (Collective.orMember member))
      if operator.producesBoolean then
        reading.gather? fold results
      else
        some (.family results fold)
    | _ => none

end Reading

/-- Whether the values under these keys of the base are booleans: the category or the family has
that type, or else the keys have it, if they are settings or named values. -/
def Registry.readsBooleans (registry : Registry) (base : String) (keys : List Expr) : Bool :=
  match (registry.category? base).bind Category.type, registry.family? base with
  | some type, _ => type == .boolean
  | none, some family => family.type == .boolean
  | none, none =>
    if isSettingBase base then
      !keys.isEmpty && keys.all fun key => Lists.settingElementType? registry key == some .boolean
    else
      let types := keys.filterMap (Lists.otherElementType? registry)
      base == otherName && !types.isEmpty && types.all (· == .boolean)

namespace Expr

variable {α : Type}

mutual

/-- The collective reading of an expression. -/
def collective (registry : Registry) (reading : Reading α) : Expr → Option (Collective α)
  | .list values fold _ => do
    let elements ← collectiveAll registry reading values
    let members ← elements.mapM Collective.one?
    return .family members fold
  | .subscript base (.list keys fold _) _ =>
    let members := keys.map fun key => reading.leaf (.subscript base key key.loc)
    if registry.readsBooleans base.name keys then
      reading.gather? fold members
    else
      some (.family members fold)
  | .compound operator args _ => do
    let args ← collectiveAll registry reading args
    reading.distribute operator args
  | e => some (.one (reading.leaf e))

def collectiveAll (registry : Registry) (reading : Reading α) :
    List Expr → Option (List (Collective α))
  | [] => some []
  | e :: rest => do
    let first ← collective registry reading e
    let others ← collectiveAll registry reading rest
    return first :: others

end

mutual

/-- Whether every key in the expression is free of lists, or a list of keys that are. -/
def hasFlatKeys : Expr → Bool
  | .subscript _ (.list keys _ _) _ => keys.all isListFree
  | .subscript _ key _ => key.isListFree
  | .list values _ _ => allHaveFlatKeys values
  | .compound _ args _ => allHaveFlatKeys args
  | _ => true

def allHaveFlatKeys : List Expr → Bool
  | [] => true
  | e :: rest => e.hasFlatKeys && allHaveFlatKeys rest

end

end Expr

/-! ## Two readings -/

/-- Several expressions joined by an operator, from the left. -/
def Expr.chain (operator : Operator) (first : Expr) (rest : List Expr) : Expr :=
  rest.foldl (fun all next => .compound operator [all, next] none) first

/-- The expression joins the members in their order, from the left, with so many operators. -/
inductive Expr.Joins (operator : Operator) : (operators : Nat) → (members : List Expr) → Expr → Prop
  where
  | single (e : Expr) : Joins operator 0 [e] e
  | next (operators : Nat) (members : List Expr) (all last : Expr) :
      Joins operator operators members all →
      Joins operator (operators + 1) (members ++ [last]) (.compound operator [all, last] none)

theorem Expr.joins_chain (operator : Operator) (first : Expr) (rest : List Expr) :
    Joins operator rest.length (first :: rest) (chain operator first rest) := by
  induction rest using List.reverseRecOn with
  | nil =>
    exact .single first
  | append_singleton rest last ih =>
    rw [chain, foldl_append, length_append]
    exact .next rest.length (first :: rest) _ last ih

/-- Expressions as expressions: booleans are gathered by a chain of operators. -/
def Reading.terms : Reading Expr where
  leaf := Expr.unlocated
  operate operator args := .compound operator args none
  gather fold := Expr.chain fold.operator

/-- A runtime that also has values for names, texts and references as they stand in expressions
whose names are not resolved yet. -/
structure Environment extends Runtime where
  lookup : Expr → Option Value

namespace Environment

/-- The value of an operator, if its operands have values that it applies to. -/
def operate (env : Environment) : Operator → List (Option Value) → Option Value
  | .not, [some operand] => Runtime.negate? operand
  | .not, _ => none
  | operator, [some left, some right] => env.operate? operator left right
  | _, _ => none

mutual

/-- The value of an expression without lists. -/
def value? (env : Environment) : Expr → Option Value
  | .string value _ => some (.string value)
  | .number value _ => some (env.numeral value.text)
  | .boolean value _ => some (.boolean value)
  | .list _ _ _ => none
  | .compound operator args _ => env.operate operator (env.values args)
  | e => env.lookup e.unlocated

def values (env : Environment) : List Expr → List (Option Value)
  | [] => []
  | e :: rest => env.value? e :: env.values rest

end

def truth? : Option Value → Option Bool
  | some (.boolean b) => some b
  | _ => none

end Environment

/-- Whether all of several booleans hold, or some of them. -/
def Fold.holds : Fold → List Bool → Bool
  | .and, truths => truths.all id
  | .or, truths => truths.any id

theorem Fold.holds_cons_cons (fold : Fold) (a b : Bool) (rest : List Bool) :
    fold.holds (fold.holds [a, b] :: rest) = fold.holds (a :: b :: rest) := by
  cases fold <;> simp [holds, Bool.and_assoc, Bool.or_assoc]

/-- All of several values, or some of them, if they are booleans.  A value on its own stands for
itself, whatever it is. -/
def Fold.gather (fold : Fold) (first : Option Value) : List (Option Value) → Option Value
  | [] => first
  | rest => ((first :: rest).mapM Environment.truth?).map fun truths => .boolean (fold.holds truths)

/-- Expressions as values. -/
def Environment.reading (env : Environment) : Reading (Option Value) where
  leaf := env.value?
  operate := env.operate
  gather := Fold.gather

/-! ## From one reading to another -/

/-- The function takes what the one reading gives to what the other gives. -/
structure Reading.Maps {α β : Type} (f : α → β) (reading : Reading α) (other : Reading β) :
    Prop where
  leaf : ∀ e, other.leaf e = f (reading.leaf e)
  operate : ∀ operator args, other.operate operator (args.map f) = f (reading.operate operator args)
  gather : ∀ fold first rest,
    other.gather fold (f first) (rest.map f) = f (reading.gather fold first rest)

namespace Collective

variable {α β : Type}

theorem mapM_one?_map (f : α → β) (args : List (Collective α)) :
    (args.map (map f)).mapM one? = (args.mapM one?).map (List.map f) := by
  induction args with
  | nil => rfl
  | cons arg rest ih =>
    rw [map_cons, mapM_cons, mapM_cons, ih]
    cases arg with
    | family members fold => rfl
    | one value => cases rest.mapM one? <;> rfl

theorem filterMap_family?_map (f : α → β) (args : List (Collective α)) :
    (args.map (map f)).filterMap family? =
      (args.filterMap family?).map fun found => (found.1.map f, found.2) := by
  induction args with
  | nil => rfl
  | cons arg rest ih =>
    cases arg with
    | one value => exact ih
    | family members fold => exact congrArg (List.cons _) ih

theorem map_orMember (f : α → β) (member : α) (args : List (Collective α)) :
    (args.map (map f)).map (orMember (f member)) = (args.map (orMember member)).map f := by
  rw [map_map, map_map]
  refine map_congr_left fun arg _ => ?_
  cases arg <;> rfl

end Collective

namespace Reading.Maps

variable {α β : Type} {f : α → β} {reading : Reading α} {other : Reading β}

theorem gather? (maps : Maps f reading other) (fold : Option Fold) (members : List α) :
    other.gather? fold (members.map f) = (reading.gather? fold members).map (Collective.map f) := by
  cases members with
  | nil => rfl
  | cons first rest =>
    cases fold with
    | none => rfl
    | some fold => exact congrArg (some ∘ Collective.one) (maps.gather fold first rest)

theorem distribute (maps : Maps f reading other) (operator : Operator)
    (args : List (Collective α)) :
    other.distribute operator (args.map (Collective.map f)) =
      (reading.distribute operator args).map (Collective.map f) := by
  unfold Reading.distribute
  rw [Collective.mapM_one?_map, Collective.filterMap_family?_map]
  cases args.mapM Collective.one? with
  | some values => exact congrArg (some ∘ Collective.one) (maps.operate operator values)
  | none =>
    match args.filterMap Collective.family? with
    | [] => rfl
    | _ :: _ :: _ => rfl
    | [(members, fold)] =>
      have results : (members.map f).map (fun member => other.operate operator
            ((args.map (Collective.map f)).map (Collective.orMember member))) =
          (members.map fun member => reading.operate operator
            (args.map (Collective.orMember member))).map f := by
        rw [map_map, map_map]
        refine map_congr_left fun member _ => ?_
        simp only [Function.comp_apply, Collective.map_orMember, maps.operate]
      simp only [Option.map_none, map_cons, map_nil, results]
      by_cases boolean : operator.producesBoolean = true
      · rw [if_pos boolean, if_pos boolean]
        exact maps.gather? fold _
      · rw [if_neg boolean, if_neg boolean]
        rfl

end Reading.Maps

mutual

/-- What the collective reading of an expression is in one reading, it is in the other. -/
theorem collective_map {α β : Type} {f : α → β} {reading : Reading α} {other : Reading β}
    (maps : reading.Maps f other) (registry : Registry) :
    (e : Expr) → e.collective registry other =
      (e.collective registry reading).map (Collective.map f)
  | .list values fold loc => by
      simp only [Expr.collective, collectiveAll_map maps registry values]
      cases Expr.collectiveAll registry reading values with
      | none => rfl
      | some elements =>
        simp only [Option.map_some, Option.bind_eq_bind, Option.bind_some,
          Collective.mapM_one?_map]
        cases elements.mapM Collective.one? <;> rfl
  | .subscript base key loc => by
      cases key with
      | list keys fold listLoc =>
        have members : (keys.map fun key => other.leaf (.subscript base key key.loc)) =
            (keys.map fun key => reading.leaf (.subscript base key key.loc)).map f := by
          rw [map_map]
          exact map_congr_left fun key _ => maps.leaf _
        simp only [Expr.collective, members]
        by_cases boolean : registry.readsBooleans base.name keys = true
        · rw [if_pos boolean, if_pos boolean]
          exact maps.gather? fold _
        · rw [if_neg boolean, if_neg boolean]
          rfl
      | _ => exact congrArg (some ∘ Collective.one) (maps.leaf _)
  | .compound operator args loc => by
      simp only [Expr.collective, collectiveAll_map maps registry args]
      cases Expr.collectiveAll registry reading args with
      | none => rfl
      | some found => exact maps.distribute operator found
  | .string _ _ | .number _ _ | .boolean _ _ | .ident _ _ | .eval _ _ | .wildcard _
  | .placeholder _ => congrArg (some ∘ Collective.one) (maps.leaf _)

theorem collectiveAll_map {α β : Type} {f : α → β} {reading : Reading α} {other : Reading β}
    (maps : reading.Maps f other) (registry : Registry) :
    (values : List Expr) → Expr.collectiveAll registry other values =
      (Expr.collectiveAll registry reading values).map (List.map (Collective.map f))
  | [] => rfl
  | e :: rest => by
      simp only [Expr.collectiveAll, collective_map maps registry e,
        collectiveAll_map maps registry rest]
      cases e.collective registry reading with
      | none => rfl
      | some first => cases Expr.collectiveAll registry reading rest <;> rfl

end

/-! ## Values of expressions -/

namespace Environment

variable (env : Environment)

@[simp] theorem values_eq_map (values : List Expr) : env.values values = values.map env.value? := by
  induction values with
  | nil => rfl
  | cons e rest ih => rw [values, ih, map_cons]

mutual

theorem value?_unlocated : (e : Expr) → env.value? e.unlocated = env.value? e
  | .compound operator args loc => by
      simp only [Expr.unlocated, value?, values_unlocatedAll args]
  | .string _ _ | .number _ _ | .boolean _ _ | .list _ _ _ => rfl
  | .subscript base key loc =>
    congrArg env.lookup (Expr.unlocated_unlocated (.subscript base key loc))
  | .ident _ _ | .eval _ _ | .wildcard _ | .placeholder _ => rfl

theorem values_unlocatedAll :
    (values : List Expr) → env.values (Expr.unlocatedAll values) = env.values values
  | [] => rfl
  | e :: rest => by
      simp only [Expr.unlocatedAll, values, value?_unlocated e, values_unlocatedAll rest]

end

@[simp] theorem truth?_none : truth? none = none := rfl

@[simp] theorem truth?_boolean (b : Bool) : truth? (some (.boolean b)) = some b := rfl

theorem operate_fold (fold : Fold) (left right : Option Value) :
    env.operate fold.operator [left, right] =
      ((truth? left).bind fun a => (truth? right).map fun b => .boolean (fold.holds [a, b])) := by
  cases fold <;>
    rcases left with _ | _ | _ | a <;> rcases right with _ | _ | _ | b <;>
      simp [operate, truth?, Fold.operator, Fold.holds, Runtime.operate?]

theorem value?_chain (fold : Fold) (first : Expr) (rest : List Expr) :
    env.value? (Expr.chain fold.operator first rest) =
      fold.gather (env.value? first) (rest.map env.value?) := by
  induction rest generalizing first with
  | nil =>
    rfl
  | cons next rest ih =>
    have joined : env.value? (.compound fold.operator [first, next] none) =
        ((truth? (env.value? first)).bind fun a =>
          (truth? (env.value? next)).map fun b => .boolean (fold.holds [a, b])) := by
      simp only [value?, values_eq_map, map_cons, map_nil, operate_fold]
    have unrolled : Expr.chain fold.operator first (next :: rest) =
        Expr.chain fold.operator (.compound fold.operator [first, next] none) rest := rfl
    rw [unrolled, ih, joined]
    cases firstTruth : truth? (env.value? first) with
    | none => cases rest <;> simp [Fold.gather, firstTruth]
    | some a =>
      cases nextTruth : truth? (env.value? next) with
      | none => cases rest <;> simp [Fold.gather, firstTruth, nextTruth]
      | some b =>
        cases rest with
        | nil => simp [Fold.gather, firstTruth, nextTruth]
        | cons third others =>
          cases thirdTruth : truth? (env.value? third) with
          | none => simp [Fold.gather, firstTruth, nextTruth, thirdTruth]
          | some c =>
            cases truths : others.mapM (truth? ∘ env.value?) <;>
              simp [Fold.gather, firstTruth, nextTruth, thirdTruth, truths,
                Fold.holds_cons_cons]

theorem maps_value? : Reading.terms.Maps env.value? env.reading where
  leaf e := (env.value?_unlocated e).symm
  operate operator args := by
    simp only [reading, Reading.terms, value?, values_eq_map]
  gather fold first rest := (env.value?_chain fold first rest).symm

end Environment

end AutomationScript
