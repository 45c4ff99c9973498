import AutomationScript.Proofs.Lowering.BlockOrder
import AutomationScript.Proofs.Lowering.Capture
import AutomationScript.Proofs.Lowering.Folds
import AutomationScript.Proofs.Program.Outline

/-!
# Nodes that are kept and nodes that are new

A revision makes new nodes only where something changes: a new node has another outline than the
node in whose place it stands (`Faithful`).  Most revisions compare the two.  Resolving lists and
expanding wildcards do not; there, all lists or all wildcards are gone from the new node.
-/

namespace AutomationScript

open List

variable {α β γ δ : Type} {number : Number → Number}
variable {values : List Expr} {s : Stmt} {e : Expr} {r : Revised Expr} {part : List Stmt}

/-- A kept node is the one before, and the outline of a new one is different. -/
structure Revised.Tells (view : α → β) (before : α) (r : Revised α) : Prop where
  kept : r.fresh = false → r.value = before
  differs : r.fresh = true → view r.value ≠ view before

/-- Whatever the revision gives, it is new only if the outline is different. -/
def Faithful (view : α → β) (before : α) (step : Lowering (Revised α)) : Prop :=
  ∀ r, step = .ok r → r.Tells view before

namespace Revised.Tells

variable {view : α → β} {before after : α}

theorem of_kept : (Revised.kept before).Tells view before :=
  ⟨fun _ => rfl, fun impossible => absurd impossible Bool.false_ne_true⟩

theorem of_new (differs : view after ≠ view before) : (Revised.new after).Tells view before :=
  ⟨fun impossible => absurd impossible.symm Bool.false_ne_true, fun _ => differs⟩

theorem fresh_eq_false {r : Revised α} (tells : r.Tells view before)
    (same : view r.value = view before) : r.fresh = false := by
  cases isFresh : r.fresh with
  | false => rfl
  | true => exact absurd same (tells.differs isFresh)

theorem map {r : Revised α} (tells : r.Tells view before) {around : γ → δ} {f : α → γ}
    (inside : ∀ a b, around (f a) = around (f b) → view a = view b) :
    (r.map f).Tells around (f before) :=
  ⟨fun isKept => congrArg f (tells.kept isKept),
    fun isFresh same => tells.differs isFresh (inside _ _ same)⟩

theorem map₂ {other : γ} {viewOther : γ → δ} {r : Revised α} {s : Revised γ}
    (tells : r.Tells view before) (tellsOther : s.Tells viewOther other) {ε ζ : Type}
    {around : ε → ζ} {f : α → γ → ε}
    (inside : ∀ a b c d, around (f a b) = around (f c d) →
      view a = view c ∧ viewOther b = viewOther d) :
    (Revised.map₂ f r s).Tells around (f before other) := by
  constructor
  · intro isKept
    obtain ⟨first, second⟩ := Bool.or_eq_false_iff.mp isKept
    show f r.value s.value = f before other
    rw [tells.kept first, tellsOther.kept second]
  · intro isFresh same
    obtain ⟨sameFirst, sameSecond⟩ := inside _ _ _ _ same
    have noneFresh : (r.fresh || s.fresh) = false := by
      rw [tells.fresh_eq_false sameFirst, tellsOther.fresh_eq_false sameSecond]
      rfl
    rw [Revised.map₂] at isFresh
    rw [noneFresh] at isFresh
    exact absurd isFresh Bool.false_ne_true

theorem cons {rest : List α} {first : Revised α} {others : Revised (List α)}
    (tells : first.Tells view before) (tellsOthers : others.Tells (List.map view) rest) :
    (Revised.map₂ List.cons first others).Tells (List.map view) (before :: rest) :=
  tells.map₂ tellsOthers fun _ _ _ _ same => by
    rw [map_cons, map_cons, List.cons.injEq] at same
    exact same

end Revised.Tells

namespace Faithful

variable {view : α → β} {before : α}

theorem of_pure {r : Revised α} (tells : r.Tells view before) : Faithful view before (pure r) := by
  rintro _ ⟨⟩
  exact tells

theorem of_refuse (error : SemanticError) (loc : Option Location) :
    Faithful view before (refuse error loc) := by
  rintro _ ⟨⟩

theorem bind {step : Lowering γ} {next : γ → Lowering (Revised α)}
    (faithful : ∀ found, step = .ok found → Faithful view before (next found)) :
    Faithful view before (step >>= next) := by
  intro r ran
  obtain ⟨found, stepRan, nextRan⟩ := bind_eq_ok_iff.mp ran
  exact faithful found stepRan r nextRan

theorem map {step : Lowering (Revised α)} (faithful : Faithful view before step) {around : γ → δ}
    {f : α → γ} (inside : ∀ a b, around (f a) = around (f b) → view a = view b) :
    Faithful around (f before) (step >>= fun r => pure (r.map f)) :=
  bind fun _ stepRan => of_pure ((faithful _ stepRan).map inside)

theorem cons {rest : List α} {step : Lowering (Revised α)} {others : Lowering (Revised (List α))}
    (faithful : Faithful view before step) (faithfulOthers : Faithful (List.map view) rest others) :
    Faithful (List.map view) (before :: rest) (do
      let first ← step
      let found ← others
      return .map₂ List.cons first found) :=
  bind fun _ stepRan => bind fun _ othersRan =>
    of_pure ((faithful _ stepRan).cons (faithfulOthers _ othersRan))

end Faithful

/-! ## Parts of expressions and statements -/

section Parts

variable {base : Ident} {operator : Operator} {fold : Option Fold} {loc : Option Location}

theorem Expr.outline_subscript_inj (a b : Expr)
    (same : (Expr.subscript base a loc).outline number = (Expr.subscript base b loc).outline number) :
    a.outline number = b.outline number := by
  rw [Expr.outline, Expr.outline] at same
  exact (Expr.subscript.inj same).2.1

theorem Expr.Branch.outline_inj {build : List Expr → Expr} (isBranch : Branch build)
    (a b : List Expr) (same : (build a).outline number = (build b).outline number) :
    a.map (outline number) = b.map (outline number) := by
  cases isBranch with
  | list fold loc =>
    rw [Expr.outline, Expr.outline, outlineAll_eq_map, outlineAll_eq_map] at same
    exact (Expr.list.inj same).1
  | compound operator loc =>
    rw [Expr.outline, Expr.outline, outlineAll_eq_map, outlineAll_eq_map] at same
    exact (Expr.compound.inj same).2.1

end Parts

theorem faithful_reviseOption {revise : Expr → Lowering (Revised Expr)}
    (faithful : ∀ e, Faithful (Expr.outline number) e (revise e)) :
    ∀ own, Faithful (Option.map (Expr.outline number)) own (reviseOption revise own)
  | none => .of_pure .of_kept
  | some e => (faithful e).map fun _ _ same => Option.some.inj same

theorem faithful_reviseList {revise : Expr → Lowering (Revised Expr)}
    (faithful : ∀ e ∈ values, Faithful (Expr.outline number) e (revise e)) :
    Faithful (List.map (Expr.outline number)) values (reviseList revise values) := by
  induction values with
  | nil => exact .of_pure .of_kept
  | cons e rest ih =>
    obtain ⟨first, others⟩ := forall_mem_cons.mp faithful
    exact first.cons (ih others)

theorem faithful_revise {rule : Expr → Option (Lowering (Revised Expr))}
    (answered : ∀ e answer, rule e = some answer → Faithful (Expr.outline number) e answer)
    (e : Expr) : Faithful (Expr.outline number) e (e.revise rule) :=
  Expr.revise_induction (motive := Faithful (Expr.outline number)) answered
    (fun _ _ _ => .of_pure .of_kept)
    (fun _ _ _ _ inside => inside.map Expr.outline_subscript_inj)
    (fun isBranch _ _ inside => (faithful_reviseList inside).map isBranch.outline_inj) e

/-- A statement is the one that it stems from, or it is rebuilt and has another outline. -/
inductive Stmt.Stems (number : Number → Number) (s : Stmt) : Stmt → Prop where
  | same :
      Stems number s s
  | rebuilt {t : Stmt} :
      t.tag = s.tag.rebuilt → t.outline number ≠ s.outline number →
      Stems number s t

theorem Stmt.stems_ofParts {left right : Expr} {own : Option Expr} {target value : Revised Expr}
    {condition : Revised (Option Expr)} (tag : Tag)
    (targetTells : target.Tells (Expr.outline number) left)
    (valueTells : value.Tells (Expr.outline number) right)
    (conditionTells : condition.Tells (Option.map (Expr.outline number)) own) :
    Stems number (.assign left right own tag) (.ofParts target value condition tag) := by
  rw [ofParts]
  cases isFresh : (target.fresh || value.fresh || condition.fresh) with
  | false =>
    obtain ⟨others, conditionKept⟩ := Bool.or_eq_false_iff.mp isFresh
    obtain ⟨targetKept, valueKept⟩ := Bool.or_eq_false_iff.mp others
    rw [targetTells.kept targetKept, valueTells.kept valueKept,
      conditionTells.kept conditionKept]
    exact .same
  | true =>
    refine .rebuilt rfl fun same => ?_
    rw [outline, outline, Stmt.assign.injEq] at same
    obtain ⟨sameTarget, sameValue, sameCondition, _⟩ := same
    rw [targetTells.fresh_eq_false sameTarget, valueTells.fresh_eq_false sameValue,
      conditionTells.fresh_eq_false sameCondition] at isFresh
    exact Bool.false_ne_true isFresh

theorem Stmt.stems_ofCondition {own : Expr} {condition : Revised Expr} (tag : Tag)
    (tells : condition.Tells (Expr.outline number) own) :
    Stems number (.openBlock own tag) (.ofCondition condition tag) := by
  rw [ofCondition]
  cases isFresh : condition.fresh with
  | false =>
    rw [tells.kept isFresh]
    exact .same
  | true =>
    refine .rebuilt rfl fun same => tells.differs isFresh ?_
    rw [outline, outline] at same
    exact (Stmt.openBlock.inj same).1

theorem Stmt.stems_revise {target value : Expr → Lowering (Revised Expr)}
    (targetFaithful : ∀ e, Faithful (Expr.outline number) e (target e))
    (valueFaithful : ∀ e, Faithful (Expr.outline number) e (value e)) {t : Stmt}
    (ran : s.revise target value = .ok t) : Stems number s t := by
  cases s with
  | assign left right own tag =>
    obtain ⟨newTarget, targetRan, ran⟩ := bind_eq_ok_iff.mp ran
    obtain ⟨newValue, valueRan, ran⟩ := bind_eq_ok_iff.mp ran
    obtain ⟨newCondition, conditionRan, rfl⟩ := bind_pure_eq_ok_iff.mp ran
    exact stems_ofParts tag (targetFaithful left _ targetRan) (valueFaithful right _ valueRan)
      (faithful_reviseOption valueFaithful own _ conditionRan)
  | openBlock own tag =>
    obtain ⟨newCondition, conditionRan, rfl⟩ := bind_pure_eq_ok_iff.mp ran
    exact stems_ofCondition tag (valueFaithful own _ conditionRan)
  | _ =>
    cases ran
    exact .same

theorem faithful_unrevised (e : Expr) : Faithful (Expr.outline number) e (unrevised e) :=
  .of_pure .of_kept

/-! ## Definitions -/

namespace Definition

variable {definitions : Table Definition}

theorem becomes_expandExpr_namesNone (fuel : Nat) (active : List String) (e : Expr) :
    Becomes (NamesNone definitions) (expandExpr definitions fuel active e) := by
  induction fuel using Nat.strongRecOn generalizing active e with
  | ind fuel ih =>
    rw [expandExpr_eq]
    refine becomes_namesNone fun word body _ _ _ => ?_
    cases fuel with
    | zero => exact .of_refuse _ _
    | succ fewer => exact (ih fewer (Nat.lt_succ_self fewer) _ body).bind fun _ free => free

theorem faithful_expandExpr (definitions : Table Definition) (fuel : Nat) (active : List String)
    (e : Expr) : Faithful (Expr.outline number) e (expandExpr definitions fuel active e) := by
  rw [expandExpr_eq]
  refine faithful_revise (fun node answer asked => ?_) e
  cases node with
  | ident word loc =>
    cases named_of_nameRule asked with
    | misused _ => exact .of_refuse _ _
    | circular _ _ => exact .of_refuse _ _
    | entered found _ =>
      cases fuel with
      | zero => exact .of_refuse _ _
      | succ fewer =>
        refine .bind fun expanded ran => .of_pure (.of_new fun same => ?_)
        have free := (becomes_expandExpr_namesNone fewer _ _).result ran
        -- the name would be left alone in its own expansion
        cases root : expanded.value with
        | ident other otherLoc =>
          have undefined := free other.name (root ▸ (Expr.mentions_ident other otherLoc).mpr rfl)
          rw [root, Expr.outline, Expr.outline] at same
          rw [Ident.name_eq_of_unlocated (Expr.ident.inj same).1, found] at undefined
          cases undefined
        | _ =>
          rw [root] at same
          cases same
  | subscript base key loc =>
    cases asked
    exact .of_pure .of_kept
  | _ => cases asked

end Definition

/-! ## Wildcards -/

namespace Wildcard

variable {registry : Registry}

theorem not_isWildcard_expand (ran : expand registry e = .ok r) : r.value.isWildcard = false := by
  cases e with
  | wildcard => cases ran
  | subscript | list | compound =>
    obtain ⟨_, _, rfl⟩ := bind_pure_eq_ok_iff.mp ran
    rfl
  | _ =>
    cases ran
    rfl

theorem not_isWildcard_suffixes {base : Ident} {loc : Option Location}
    (ran : suffixes registry base loc = .ok values) :
    ∀ value ∈ values, value.isWildcard = false := by
  unfold suffixes at ran
  cases found : registry.family? base.name with
  | none =>
    rw [found] at ran
    cases ran
  | some family =>
    rw [found] at ran
    cases ran
    simp [Expr.isWildcard]

theorem not_isWildcard_expandElements {base : Ident} {r : Revised (List Expr)}
    (ran : expandElements registry base values = .ok r) :
    ∀ value ∈ r.value, value.isWildcard = false := by
  induction values generalizing r with
  | nil =>
    rw [expandElements] at ran
    cases ran
    exact forall_mem_nil _
  | cons e rest ih =>
    cases e with
    | wildcard loc =>
      rw [expandElements] at ran
      obtain ⟨found, suffixesRan, ran⟩ := bind_eq_ok_iff.mp ran
      obtain ⟨others, othersRan, rfl⟩ := bind_pure_eq_ok_iff.mp ran
      exact forall_mem_append.mpr ⟨not_isWildcard_suffixes suffixesRan, ih othersRan⟩
    | _ =>
      rw [expandElements] at ran
      · obtain ⟨first, firstRan, ran⟩ := bind_eq_ok_iff.mp ran
        obtain ⟨others, othersRan, rfl⟩ := bind_pure_eq_ok_iff.mp ran
        exact forall_mem_cons.mpr ⟨not_isWildcard_expand firstRan, ih othersRan⟩
      · exact nofun

theorem faithful_expandElements (base : Ident)
    (each : ∀ value ∈ values, Faithful (Expr.outline number) value (expand registry value)) :
    Faithful (List.map (Expr.outline number)) values (expandElements registry base values) := by
  induction values with
  | nil => exact .of_pure .of_kept
  | cons e rest ih =>
    obtain ⟨first, others⟩ := forall_mem_cons.mp each
    by_cases single : e.isWildcard = false
    · rw [expandElements_cons base single]
      exact first.cons (ih others)
    · cases e with
      | wildcard loc =>
        refine .bind fun found suffixesRan => .bind fun others othersRan => .of_pure (.of_new ?_)
        -- the wildcard is the first element before, and no element is one afterwards
        intro same
        have member : Expr.outline number (.wildcard loc) ∈
            (found ++ others.value).map (Expr.outline number) := by
          rw [same]
          exact mem_cons_self
        obtain ⟨value, valueMember, isWildcard⟩ := mem_map.mp member
        have noWildcard : value.isWildcard = false :=
          forall_mem_append.mpr ⟨not_isWildcard_suffixes suffixesRan,
            not_isWildcard_expandElements othersRan⟩ value valueMember
        rw [← Expr.isWildcard_outline number, isWildcard] at noWildcard
        cases noWildcard
      | _ => exact absurd rfl single

theorem faithful_expand (e : Expr) : Faithful (Expr.outline number) e (expand registry e) := by
  refine (expand_induction (Faithful (Expr.outline number))
    (fun _ => Faithful (Expr.outline number)) ?atom ?wildcard ?subscript ?branch ?wildcardKey
    ?listKey ?singleKey).1 e
  case atom => exact fun _ _ _ => .of_pure .of_kept
  case wildcard => exact fun _ => .of_refuse _ _
  case subscript => exact fun _ _ _ inside => inside.map Expr.outline_subscript_inj
  case branch =>
    exact fun isBranch _ inside => (faithful_reviseList inside).map isBranch.outline_inj
  case wildcardKey =>
    exact fun _ _ => .bind fun _ _ => .of_pure (.of_new fun same => by cases same)
  case listKey =>
    exact fun base _ fold loc inside =>
      (faithful_expandElements base inside).map (Expr.Branch.list fold loc).outline_inj
  case singleKey => exact fun _ _ _ _ inside => inside

end Wildcard

/-! ## Lists -/

namespace Lists

variable {registry : Registry}

theorem Shows.isListFree {c : Collective Expr} (shows : Shows c e) (noList : e.isList = false) :
    e.isListFree = true := by
  cases shows with
  | one _ free => exact free
  | family => cases noList

theorem Shows.elements {c : Collective Expr} {fold : Option Fold} {loc : Option Location}
    (shows : Shows c (.list values fold loc)) : ∀ value ∈ values, value.isListFree = true := by
  cases shows with
  | one _ free => cases Expr.not_isList_of_isListFree free
  | family _ _ _ free => exact free

/-- What is resolved has no list in it or is one, and it is what was given unless it is new. -/
structure Settled (e : Expr) (r : Revised Expr) : Prop where
  shown : ∃ c, Shows c r.value
  kept : r.fresh = false → r.value = e

structure AllSettled (values : List Expr) (r : Revised (List Expr)) : Prop where
  shown : ∃ found, Forall₂ Shows found r.value
  kept : r.fresh = false → r.value = values

theorem settled_applyOperator {operator : Operator} {args : List Expr}
    {found : Revised (List Expr)} {loc : Option Location} (settled : AllSettled args found)
    (ran : applyOperator operator found loc = .ok r) : Settled (.compound operator args loc) r := by
  obtain ⟨operands, shown⟩ := settled.shown
  obtain ⟨c, _, shows⟩ := shows_applyOperator shown ran
  refine ⟨⟨c, shows⟩, fun isKept => ?_⟩
  rcases applyOperator_eq_ok_cases ran with ⟨_, rfl⟩ |
    ⟨_, _, _, _, _, _, _, _, _, _, rfl⟩
  · exact congrArg (Expr.compound operator · loc) (settled.kept isKept)
  · cases isKept

theorem settled_reviseList {r : Revised (List Expr)}
    (each : ∀ value ∈ values, ∀ {r}, resolve registry value = .ok r → Settled value r)
    (ran : reviseList (resolve registry) values = .ok r) : AllSettled values r := by
  induction values generalizing r with
  | nil =>
    cases ran
    exact ⟨⟨[], .nil⟩, fun _ => rfl⟩
  | cons e rest ih =>
    obtain ⟨first, others, firstRan, othersRan, rfl⟩ := reviseList_cons_eq_ok_iff.mp ran
    have firstSettled := each e mem_cons_self firstRan
    have othersSettled := ih (fun value member => each value (mem_cons_of_mem _ member))
      othersRan
    obtain ⟨c, shows⟩ := firstSettled.shown
    obtain ⟨found, shown⟩ := othersSettled.shown
    refine ⟨⟨c :: found, .cons shows shown⟩, fun isKept => ?_⟩
    obtain ⟨firstKept, othersKept⟩ := Bool.or_eq_false_iff.mp isKept
    exact congrArg₂ List.cons (firstSettled.kept firstKept) (othersSettled.kept othersKept)

theorem settled_resolve (registry : Registry) (e : Expr) (ran : resolve registry e = .ok r) :
    Settled e r := by
  induction e using Expr.induction generalizing r with
  | atom e isAtom =>
    rw [resolve_atom isAtom] at ran
    cases ran
    exact ⟨⟨_, .one _ (Expr.isListFree_of_isAtom isAtom)⟩, fun _ => rfl⟩
  | subscript base key loc ih =>
    rw [resolve] at ran
    obtain ⟨found, keyRan, ran⟩ := bind_eq_ok_iff.mp ran
    have settled := ih keyRan
    obtain ⟨c, shows⟩ := settled.shown
    cases root : found.value with
    | list keys fold listLoc =>
      rw [root] at ran shows
      obtain ⟨e, expanded, rfl⟩ := bind_pure_eq_ok_iff.mp ran
      have result : ∃ c, (Expr.subscript base (.list keys fold listLoc) loc).collective
          registry Reading.terms = some c ∧ Shows c e :=
        shows_expandSubscript shows.elements expanded
      exact ⟨result.imp fun _ both => both.2, fun isKept => by cases isKept⟩
    | _ =>
      have free : found.value.isListFree = true := shows.isListFree (by rw [root]; rfl)
      rw [root] at ran
      cases ran
      exact ⟨⟨_, .one _ (Expr.isListFree_subscript.trans free)⟩,
        fun isKept => congrArg (Expr.subscript base · loc) (settled.kept isKept)⟩
  | branch isBranch values ih =>
    cases isBranch with
    | list fold loc =>
      obtain ⟨found, valuesRan, noList, rfl⟩ := resolve_list_eq_ok_iff.mp ran
      have settled := settled_reviseList ih valuesRan
      obtain ⟨_, shown⟩ := settled.shown
      obtain ⟨_, free⟩ := eq_singles_of_shows shown noList
      exact ⟨⟨_, .family _ fold loc free⟩,
        fun isKept => congrArg (Expr.list · fold loc) (settled.kept isKept)⟩
    | compound operator loc =>
      rw [resolve, resolveAll_eq_reviseList] at ran
      obtain ⟨found, argsRan, ran⟩ := bind_eq_ok_iff.mp ran
      exact settled_applyOperator (settled_reviseList ih argsRan) ran

theorem faithful_resolveRoot (registry : Registry) (e : Expr) :
    Faithful (Expr.outline number) e (resolveRoot registry e) := by
  intro r ran
  obtain ⟨resolved, noList⟩ := resolveRoot_eq_ok_iff.mp ran
  have settled := settled_resolve registry e resolved
  refine ⟨settled.kept, fun isFresh same => ?_⟩
  -- without a list in it nothing would have been resolved
  obtain ⟨c, shows⟩ := settled.shown
  have free : e.isListFree = true := by
    have resultFree := shows.isListFree noList
    rw [Expr.isListFree, ← Expr.hasList_outline number, same, Expr.hasList_outline] at resultFree
    exact resultFree
  rw [resolve_of_isListFree registry e free] at resolved
  cases resolved
  cases isFresh

theorem tells_unrollKeys {base : Ident} {keys : List Expr} {targets : List (Revised Expr)}
    (ran : unrollKeys base keys = .ok targets) {fold : Option Fold}
    {listLoc loc : Option Location} :
    ∀ r ∈ targets,
      r.Tells (Expr.outline number) (.subscript base (.list values fold listLoc) loc) := by
  induction keys generalizing targets with
  | nil =>
    cases ran
    exact forall_mem_nil _
  | cons key rest ih =>
    rw [unrollKeys] at ran
    split at ran
    · cases ran
    · obtain ⟨others, othersRan, rfl⟩ := bind_pure_eq_ok_iff.mp ran
      refine forall_mem_cons.mpr ⟨.of_new fun same => ?_, ih othersRan⟩
      rw [Expr.outline, Expr.outline] at same
      have sameKind := congrArg Expr.isList (Expr.subscript.inj same).2.1
      rw [Expr.isList_outline, Expr.isList_outline] at sameKind
      contradiction

theorem tells_unroll {target : Expr} {targets : List (Revised Expr)}
    (ran : unroll target = .ok targets) : ∀ r ∈ targets, r.Tells (Expr.outline number) target := by
  unfold unroll at ran
  split at ran
  · exact tells_unrollKeys ran
  · cases ran
    exact forall_mem_singleton.mpr .of_kept

theorem stems_lowerStmt (ran : lowerStmt registry s = .ok part) : ∀ t ∈ part, s.Stems number t := by
  cases s with
  | assign target value condition tag =>
    obtain ⟨newValue, valueRan, ran⟩ := bind_eq_ok_iff.mp ran
    obtain ⟨newCondition, conditionRan, ran⟩ := bind_eq_ok_iff.mp ran
    obtain ⟨targets, targetsRan, rfl⟩ := bind_pure_eq_ok_iff.mp ran
    intro t member
    obtain ⟨newTarget, isTarget, rfl⟩ := mem_map.mp member
    exact Stmt.stems_ofParts tag (tells_unroll targetsRan newTarget isTarget)
      (faithful_resolveRoot registry value _ valueRan)
      (faithful_reviseOption (faithful_resolveRoot registry) condition _ conditionRan)
  | openBlock condition tag =>
    obtain ⟨newCondition, conditionRan, rfl⟩ := bind_pure_eq_ok_iff.mp ran
    exact forall_mem_singleton.mpr
      (Stmt.stems_ofCondition tag (faithful_resolveRoot registry condition _ conditionRan))
  | _ =>
    cases ran
    exact forall_mem_singleton.mpr .same

end Lists

/-! ## Placeholders -/

namespace Placeholder

theorem faithful_fill (key : Option Ident) (e : Expr) :
    Faithful (Expr.outline number) e (fill key e) := by
  refine faithful_revise (fun node answer asked => ?_) e
  cases node with
  | placeholder loc =>
    cases key <;> cases asked
    · exact .of_refuse _ _
    · exact .of_pure (.of_new fun same => by cases same)
  | _ => cases asked

theorem stems_lowerStmt (ran : lowerStmt s = .ok part) : ∀ t ∈ part, s.Stems number t := by
  cases s with
  | assign target value condition tag =>
    obtain ⟨_, _, ran⟩ := bind_eq_ok_iff.mp ran
    obtain ⟨newValue, valueRan, ran⟩ := bind_eq_ok_iff.mp ran
    obtain ⟨newCondition, conditionRan, rfl⟩ := bind_pure_eq_ok_iff.mp ran
    exact forall_mem_singleton.mpr (Stmt.stems_ofParts tag .of_kept
      (faithful_fill _ value _ valueRan)
      (faithful_reviseOption (faithful_fill _) condition _ conditionRan))
  | openBlock condition tag =>
    obtain ⟨_, _, rfl⟩ := bind_pure_eq_ok_iff.mp ran
    exact forall_mem_singleton.mpr .same
  | _ =>
    cases ran
    exact forall_mem_singleton.mpr .same

end Placeholder

/-! ## Aliases and families -/

theorem Alias.faithful_resolve (registry : Registry) (e : Expr) :
    Faithful (Expr.outline number) e (resolve registry e) := by
  refine faithful_revise (fun node answer asked => ?_) e
  cases node with
  | ident name loc =>
    dsimp only at asked
    split at asked <;> cases asked
    · exact .of_refuse _ _
    · exact .of_pure (.of_new fun same => by cases same)
  | subscript base key loc =>
    cases asked
    unfold resolveSubscript
    dsimp only
    split
    · exact .of_pure .of_kept
    · split
      · exact .of_refuse _ _
      · split
        · split
          · exact .of_refuse _ _
          · split
            · exact .of_pure .of_kept
            · rename_i different
              refine .of_pure (.of_new fun same => different ?_)
              have sameKey := (Expr.subscript.inj same).2.1
              exact Ident.name_eq_of_unlocated (Expr.ident.inj sameKey).1
        · exact .of_refuse _ _
  | _ => cases asked

namespace Families

variable {registry : Registry}

theorem faithful_resolveTarget (e : Expr) :
    Faithful (Expr.outline number) e (resolveTarget registry e) := by
  cases e with
  | ident name loc =>
    rw [resolveTarget]
    split
    · exact .of_pure .of_kept
    · exact .of_refuse _ _
  | subscript base key loc =>
    rw [resolveTarget]
    exact .bind fun id _ => .of_pure (.of_new fun same => by cases same)
  | _ => exact .of_refuse _ _

/-- A member of a family becomes a subscript of another base, unless the family is named after this
base. -/
theorem faithful_resolve (noFamily : registry.family? settingCurrent = none) (e : Expr) :
    Faithful (Expr.outline number) e (resolve registry e) := by
  refine faithful_revise (fun node answer asked => ?_) e
  cases node with
  | subscript base key loc =>
    cases asked
    unfold resolveSubscript
    dsimp only
    split
    · rename_i isFamily
      refine .bind fun id _ => .of_pure (.of_new fun same => ?_)
      have sameBase := Ident.name_eq_of_unlocated (Expr.subscript.inj same).1
      rw [← sameBase, noFamily] at isFamily
      cases isFamily
    · split
      · split
        · split
          · exact .of_pure .of_kept
          · exact .of_refuse _ _
        · refine .bind fun id _ => .of_pure (.of_new fun same => ?_)
          cases (Expr.subscript.inj same).2.1
        · exact .of_refuse _ _
      · split
        · exact .of_pure .of_kept
        · exact .of_refuse _ _
  | _ => cases asked

end Families

/-! ## Blocks -/

namespace Blocks

theorem sizeOf_nestedCondition (number : Number → Number) (blocks : List Expr) (own : Expr) :
    ∃ e, nestedCondition blocks (some own) = some e ∧
      sizeOf (own.outline number) + blocks.length ≤ sizeOf (e.outline number) := by
  induction blocks with
  | nil => exact ⟨own, rfl, Nat.le_refl _⟩
  | cons block inner ih =>
    obtain ⟨e, isInner, grown⟩ := ih
    rw [nestedCondition, isInner]
    refine ⟨_, rfl, ?_⟩
    simp only [Expr.outline, Expr.outlineAll, Expr.compound.sizeOf_spec, List.cons.sizeOf_spec,
      length_cons]
    omega

/-- Only an assignment under some blocks is rebuilt, and its condition is another one. -/
theorem stems_governed (blocks : List Expr) (s : Stmt) : s.Stems number (s.governed blocks) := by
  cases s with
  | assign target value own tag =>
    rw [Stmt.governed]
    cases blocks with
    | nil => exact .same
    | cons block inner =>
      refine .rebuilt rfl fun same => ?_
      rw [Stmt.outline, Stmt.outline] at same
      have sameCondition := (Stmt.assign.inj same).2.2.1
      cases own with
      | none =>
        rw [nestedCondition] at sameCondition
        split at sameCondition <;> cases sameCondition
      | some e =>
        obtain ⟨whole, isWhole, grown⟩ := sizeOf_nestedCondition number (block :: inner) e
        rw [isWhole] at sameCondition
        rw [Option.some.inj sameCondition, length_cons] at grown
        omega
  | _ => exact .same

end Blocks

/-! ## Conditions -/

namespace Conditions

theorem faithful_lowerValue (e : Expr) : Faithful (Expr.outline number) e (lowerValue e) := by
  cases e with
  | eval | string | number | boolean => exact .of_pure .of_kept
  | _ =>
    unfold lowerValue
    split
    · exact .of_pure .of_kept
    · refine .bind fun text _ => .of_pure (.of_new fun same => ?_)
      cases same

theorem faithful_inline (e : Expr) :
    Faithful (Expr.outline number) e (match e.inlineEval? with
      | some text => pure (.new (.eval text e.loc))
      | none => pure (.kept e)) := by
  cases found : e.inlineEval? with
  | none => exact .of_pure .of_kept
  | some text =>
    cases e with
    | subscript =>
      refine .of_pure (.of_new fun same => ?_)
      cases same
    | _ => cases found

theorem faithful_lowerOperand (e : Expr) : Faithful (Expr.outline number) e (lowerOperand e) := by
  cases e with
  | compound operator args loc =>
    refine .bind fun text _ => .of_pure (.of_new fun same => ?_)
    cases same
  | _ => exact faithful_inline _

theorem faithful_lowerCondition (e : Expr) :
    Faithful (Expr.outline number) e (lowerCondition e) := by
  cases e with
  | compound operator args loc =>
    exact (faithful_reviseList fun arg _ => faithful_lowerOperand arg).map
      (Expr.Branch.compound _ _).outline_inj
  | _ => exact faithful_inline _

theorem stems_lowerStmt (ran : lowerStmt s = .ok part) : ∀ t ∈ part, s.Stems number t := by
  cases s with
  | assign target value condition tag =>
    obtain ⟨newValue, valueRan, ran⟩ := bind_eq_ok_iff.mp ran
    obtain ⟨newCondition, conditionRan, rfl⟩ := bind_pure_eq_ok_iff.mp ran
    exact forall_mem_singleton.mpr (Stmt.stems_ofParts tag .of_kept
      (faithful_lowerValue value _ valueRan)
      (faithful_reviseOption faithful_lowerCondition condition _ conditionRan))
  | _ =>
    cases ran
    exact forall_mem_singleton.mpr .same

end Conditions

/-! ## Chains of triggers -/

namespace Chains

variable {registry : Registry}

theorem faithful_normalize (vocabulary : Vocabulary) (arg : TriggerArg) :
    Faithful (TriggerArg.outline number) arg (normalize vocabulary arg) := by
  unfold normalize
  split
  · exact .of_refuse _ _
  · refine .bind fun count _ => ?_
    dsimp only
    split
    · exact .of_pure .of_kept
    · rename_i different
      refine .of_pure (.of_new fun same => different ?_)
      obtain ⟨sameKind, sameId, sameCount, _⟩ := TriggerArg.mk.inj same
      refine ⟨(Ident.name_eq_of_unlocated sameKind).symm,
        (Ident.name_eq_of_unlocated sameId).symm, ?_⟩
      cases own : arg.count with
      | none =>
        rw [own] at sameCount
        cases sameCount
      | some e => rfl

theorem faithful_normalizeCondition (arg : TriggerArg) :
    Faithful (TriggerArg.outline number) arg (normalizeCondition registry arg) := by
  unfold normalizeCondition
  split
  · exact .of_pure .of_kept
  · split
    · exact .of_refuse _ _
    · exact faithful_normalize _ arg

theorem faithful_normalizeAction (arg : TriggerArg) :
    Faithful (TriggerArg.outline number) arg (normalizeAction registry arg) := by
  unfold normalizeAction
  split
  · exact .of_refuse _ _
  · exact faithful_normalize _ arg

theorem stems_trigger {condition action : TriggerArg}
    {newCondition newAction : Revised TriggerArg} (tag : Tag)
    (conditionTells : newCondition.Tells (TriggerArg.outline number) condition)
    (actionTells : newAction.Tells (TriggerArg.outline number) action) :
    (Stmt.trigger condition [action] tag).Stems number (.trigger newCondition.value
      [newAction.value] (if !newCondition.fresh && !newAction.fresh then tag else tag.rebuilt)) := by
  cases isKept : !newCondition.fresh && !newAction.fresh with
  | true =>
    obtain ⟨conditionKept, actionKept⟩ := Bool.and_eq_true_iff.mp isKept
    rw [conditionTells.kept (by simpa using conditionKept),
      actionTells.kept (by simpa using actionKept)]
    exact .same
  | false =>
    refine .rebuilt rfl fun same => ?_
    rw [Stmt.outline, Stmt.outline, Stmt.trigger.injEq] at same
    obtain ⟨sameCondition, sameAction, _⟩ := same
    rw [conditionTells.fresh_eq_false sameCondition,
      actionTells.fresh_eq_false (List.cons.inj sameAction).1] at isKept
    cases isKept

theorem stems_single (awaited condition : TriggerArg) (action : TriggerArg)
    {actions : List TriggerArg} (tag : Tag) (several : actions.length ≠ 1) :
    (Stmt.trigger condition actions tag).Stems number (.trigger awaited [action] tag.rebuilt) := by
  refine .rebuilt rfl fun same => several ?_
  rw [Stmt.outline, Stmt.outline] at same
  simpa using (congrArg List.length (Stmt.trigger.inj same).2.1).symm

theorem stems_later {tag : Tag} {rest : List TriggerArg} {others : List Stmt}
    (ran : later registry tag rest = .ok others) (condition : TriggerArg)
    {actions : List TriggerArg} (several : actions.length ≠ 1) :
    ∀ t ∈ others, (Stmt.trigger condition actions tag).Stems number t := by
  induction rest generalizing others with
  | nil =>
    cases ran
    exact forall_mem_nil _
  | cons action rest ih =>
    obtain ⟨normalized, _, ran⟩ := bind_eq_ok_iff.mp ran
    obtain ⟨more, moreRan, rfl⟩ := bind_pure_eq_ok_iff.mp ran
    exact forall_mem_cons.mpr ⟨stems_single _ _ _ tag several, ih moreRan⟩

theorem stems_lowerStmt (ran : lowerStmt registry s = .ok part) : ∀ t ∈ part, s.Stems number t := by
  cases s with
  | trigger condition actions tag =>
    obtain ⟨newCondition, conditionRan, ran⟩ := bind_eq_ok_iff.mp ran
    cases actions with
    | nil =>
      cases ran
      exact forall_mem_nil _
    | cons action rest =>
      obtain ⟨newAction, actionRan, ran⟩ := bind_eq_ok_iff.mp ran
      obtain ⟨others, othersRan, rfl⟩ := bind_pure_eq_ok_iff.mp ran
      cases rest with
      | nil =>
        cases othersRan
        refine forall_mem_singleton.mpr ?_
        exact stems_trigger tag (faithful_normalizeCondition condition _ conditionRan)
          (faithful_normalizeAction action _ actionRan)
      | cons next rest =>
        have several : (action :: next :: rest).length ≠ 1 := by simp
        exact forall_mem_cons.mpr
          ⟨stems_single _ _ _ tag several, stems_later othersRan condition several⟩
  | _ =>
    cases ran
    exact forall_mem_singleton.mpr .same

end Chains

end AutomationScript
