import AutomationScript.Proofs.Lowering.Collective
import AutomationScript.Proofs.Lowering.Lists
import AutomationScript.Registry.Builtin
import Mathlib.Data.List.Forall2

/-!
# Resolving lists is the collective reading

Resolving the lists of an expression gives its collective reading as an expression, in which each
family of booleans is a chain of `and` or `or` (`collective_resolve`).
-/

namespace AutomationScript

open List

/-! ## Types of bases -/

namespace Lists

variable {registry : Registry}
variable {type : Option ValueType} {keys values : List Expr} {e : Expr} {loc : Option Location}
  {fold : Option Fold}

variable {shared : Option ValueType}

theorem settingElementType?_of_shared (ran : sharedSettingType registry shared keys = .ok type) :
    (shared.isSome → type = shared) ∧ (keys = [] → type = shared) ∧
      ∀ key ∈ keys, settingElementType? registry key = type := by
  induction keys generalizing shared with
  | nil =>
    cases ran
    exact ⟨fun _ => rfl, fun _ => rfl, forall_mem_nil _⟩
  | cons key rest ih =>
    rw [sharedSettingType] at ran
    cases found : settingElementType? registry key with
    | none =>
      rw [found] at ran
      cases ran
    | some own =>
      simp only [found] at ran
      by_cases mixed : (shared.isSome && shared != some own) = true
      · rw [if_pos mixed] at ran
        cases ran
      · rw [if_neg mixed] at ran
        obtain ⟨same, _, each⟩ := ih ran
        have typeOwn : type = some own := same rfl
        refine ⟨fun isSome => ?_, fun isNil => ?_, forall_mem_cons.mpr ⟨?_, each⟩⟩
        · simp only [isSome, Bool.true_and, bne_iff_ne, ne_eq, Decidable.not_not] at mixed
          rw [typeOwn, mixed]
        · cases isNil
        · rw [typeOwn]
          exact found

theorem otherElementType?_of_shared (ran : sharedOtherType registry shared keys = .ok type) :
    (shared.isSome → type = shared) ∧
      (keys.filterMap (otherElementType? registry) = [] → type = shared) ∧
      ∀ own ∈ keys.filterMap (otherElementType? registry), some own = type := by
  induction keys generalizing shared with
  | nil =>
    cases ran
    exact ⟨fun _ => rfl, fun _ => rfl, forall_mem_nil _⟩
  | cons key rest ih =>
    rw [sharedOtherType] at ran
    cases found : otherElementType? registry key with
    | none =>
      rw [found] at ran
      rw [filterMap_cons_none found]
      exact ih ran
    | some own =>
      simp only [found] at ran
      rw [filterMap_cons_some found]
      by_cases mixed : (shared.isSome && shared != some own) = true
      · rw [if_pos mixed] at ran
        cases ran
      · rw [if_neg mixed] at ran
        obtain ⟨same, _, each⟩ := ih ran
        have typeOwn : type = some own := same rfl
        refine ⟨fun isSome => ?_, fun isNil => ?_,
          forall_mem_cons.mpr ⟨typeOwn.symm, each⟩⟩
        · simp only [isSome, Bool.true_and, bne_iff_ne, ne_eq, Decidable.not_not] at mixed
          rw [typeOwn, mixed]
        · cases isNil

theorem baseType_eq_boolean_iff {base : String} (ran : baseType registry base keys = .ok type) :
    type = some .boolean ↔ registry.readsBooleans base keys = true := by
  unfold baseType at ran
  rw [Registry.readsBooleans]
  cases ofCategory : (registry.category? base).bind Category.type with
  | some declared =>
    rw [ofCategory] at ran
    cases ran
    simp
  | none =>
    simp only [ofCategory] at ran
    cases ofFamily : registry.family? base with
    | some family =>
      rw [ofFamily] at ran
      cases ran
      simp
    | none =>
      simp only [ofFamily] at ran
      by_cases ofSettings : isSettingBase base = true
      · rw [if_pos ofSettings] at ran
        obtain ⟨_, none?, each⟩ := settingElementType?_of_shared ran
        simp only [ofSettings, if_true]
        cases keys with
        | nil => simp [none? rfl]
        | cons key rest =>
          have first := each key mem_cons_self
          constructor
          · rintro rfl
            simpa using each
          · intro all
            simp only [all_cons, Bool.and_eq_true, beq_iff_eq] at all
            rw [← first, all.2.1]
      · rw [if_neg ofSettings] at ran ⊢
        by_cases isOther : base = otherName
        · rw [if_pos isOther] at ran
          obtain ⟨_, none?, each⟩ := otherElementType?_of_shared ran
          simp only [isOther, beq_self_eq_true, Bool.true_and]
          cases types : keys.filterMap (otherElementType? registry) with
          | nil => simp [none? types]
          | cons first rest =>
            rw [types] at each
            have firstType := each first mem_cons_self
            constructor
            · rintro rfl
              simpa using each
            · intro all
              simp only [all_cons, Bool.and_eq_true, beq_iff_eq] at all
              rw [← firstType, all.2.1]
        · rw [if_neg isOther] at ran
          cases ran
          simp [isOther]

/-! ## Resolving -/

/-- An expression without lists, or a list of such expressions, and what it stands for. -/
inductive Shows : Collective Expr → Expr → Prop where
  | one (e : Expr) :
      e.isListFree = true →
      Shows (.one e.unlocated) e
  | family (values : List Expr) (fold : Option Fold) (loc : Option Location) :
      (∀ value ∈ values, value.isListFree = true) →
      Shows (.family (values.map Expr.unlocated) fold) (.list values fold loc)

theorem isListFree_foldl (operator : Operator) (loc : Option Location) {first : Expr}
    (firstFree : first.isListFree = true) {rest : List Expr}
    (restFree : ∀ e ∈ rest, e.isListFree = true) :
    (rest.foldl (fun all next => Expr.compound operator [all, next] loc) first).isListFree =
      true := by
  induction rest generalizing first with
  | nil =>
    exact firstFree
  | cons next rest ih =>
    obtain ⟨nextFree, othersFree⟩ := forall_mem_cons.mp restFree
    refine ih (Expr.isListFree_compound.mpr ?_) othersFree
    simp [firstFree, nextFree]

theorem shows_foldValues (free : ∀ value ∈ values, value.isListFree = true)
    (ran : foldValues fold loc values = .ok e) :
    ∃ c, Reading.terms.gather? fold (values.map Expr.unlocated) = some c ∧ Shows c e := by
  unfold foldValues at ran
  cases fold with
  | none => cases ran
  | some fold =>
    cases values with
    | nil => cases ran
    | cons first rest =>
      cases ran
      obtain ⟨firstFree, restFree⟩ := forall_mem_cons.mp free
      refine ⟨_, rfl, ?_⟩
      show Shows (.one (Expr.chain fold.operator first.unlocated (rest.map Expr.unlocated))) _
      rw [Expr.chain, Expr.foldl_compound_unlocated fold.operator loc]
      exact .one _ (isListFree_foldl fold.operator loc firstFree restFree)

/-- What a family stands for once it is folded, if it is one of booleans. -/
theorem shows_gathered {boolean : Prop} [Decidable boolean] {listLoc : Option Location}
    (free : ∀ value ∈ values, value.isListFree = true)
    (ran : (if boolean then foldValues fold listLoc values
      else pure (.list values fold loc)) = .ok e) :
    ∃ c, (if boolean then Reading.terms.gather? fold (values.map Expr.unlocated)
        else some (.family (values.map Expr.unlocated) fold)) = some c ∧ Shows c e := by
  by_cases holds : boolean
  · rw [if_pos holds] at ran ⊢
    exact shows_foldValues free ran
  · rw [if_neg holds] at ran ⊢
    cases ran
    exact ⟨_, rfl, .family values fold loc free⟩

theorem shows_expandSubscript {base : Ident} {listLoc keyLoc : Option Location}
    (free : ∀ key ∈ keys, key.isListFree = true)
    (ran : expandSubscript registry base keys fold listLoc loc = .ok e) :
    ∃ c, (Expr.subscript base (.list keys fold keyLoc) loc).collective registry Reading.terms =
      some c ∧ Shows c e := by
  obtain ⟨type, typed, ran⟩ := bind_eq_ok_iff.mp ran
  have subscriptsFree : ∀ value ∈ keys.map fun key => Expr.subscript base key key.loc,
      value.isListFree = true := by
    intro value member
    obtain ⟨key, keyMember, rfl⟩ := mem_map.mp member
    rw [Expr.isListFree_subscript]
    exact free key keyMember
  have shown := shows_gathered subscriptsFree ran
  simp only [baseType_eq_boolean_iff typed, map_map] at shown
  exact shown

/-- What expressions without lists stand for. -/
def singles (args : List Expr) : List (Collective Expr) :=
  args.map fun arg => .one arg.unlocated

variable {found : List (Collective Expr)}

theorem eq_singles_of_shows {args : List Expr} (shown : Forall₂ Shows found args)
    (noList : ∀ arg ∈ args, arg.isList = false) :
    found = singles args ∧ ∀ arg ∈ args, arg.isListFree = true := by
  induction shown with
  | nil =>
    exact ⟨rfl, forall_mem_nil _⟩
  | @cons c arg found args first _ ih =>
    obtain ⟨argNoList, restNoList⟩ := forall_mem_cons.mp noList
    obtain ⟨rfl, restFree⟩ := ih restNoList
    cases first with
    | one _ free => exact ⟨rfl, forall_mem_cons.mpr ⟨free, restFree⟩⟩
    | family values fold loc free => cases argNoList

theorem mapM_one?_singles (args : List Expr) :
    (singles args).mapM Collective.one? = some (args.map Expr.unlocated) := by
  induction args with
  | nil => rfl
  | cons arg rest ih =>
    rw [singles, map_cons, mapM_cons, ← singles, ih]
    rfl

theorem filterMap_family?_singles (args : List Expr) :
    (singles args).filterMap Collective.family? = [] := by
  induction args with
  | nil => rfl
  | cons arg rest ih => exact ih

theorem map_orMember_singles (member : Expr) (args : List Expr) :
    (singles args).map (Collective.orMember member) = args.map Expr.unlocated := by
  rw [singles, map_map]
  rfl

/-- An operator with one list among its operands means the family of the results. -/
theorem distribute_family (operator : Operator) (fold : Option Fold)
    (before elements after : List Expr) :
    Reading.terms.distribute operator
        (singles before ++ .family (elements.map Expr.unlocated) fold :: singles after) =
      if operator.producesBoolean = true then
        Reading.terms.gather? fold ((elements.map fun element =>
          Expr.compound operator (before ++ element :: after) element.loc).map Expr.unlocated)
      else
        some (.family ((elements.map fun element =>
          Expr.compound operator (before ++ element :: after) element.loc).map Expr.unlocated)
            fold) := by
  generalize operands : singles before ++ .family (elements.map Expr.unlocated) fold ::
    singles after = args
  have someFamily : args.mapM Collective.one? = none := by
    rw [← operands, mapM_append, mapM_one?_singles]
    rfl
  have oneFamily : args.filterMap Collective.family? = [(elements.map Expr.unlocated, fold)] := by
    rw [← operands, filterMap_append, filterMap_family?_singles, nil_append]
    exact congrArg (List.cons _) (filterMap_family?_singles after)
  have picked : ∀ member, args.map (Collective.orMember member) =
      before.map Expr.unlocated ++ member :: after.map Expr.unlocated := by
    intro member
    rw [← operands, map_append, map_cons, map_orMember_singles, map_orMember_singles]
    rfl
  have results : (elements.map Expr.unlocated).map (fun member =>
        Reading.terms.operate operator (args.map (Collective.orMember member))) =
      (elements.map fun element =>
        Expr.compound operator (before ++ element :: after) element.loc).map Expr.unlocated := by
    rw [map_map, map_map]
    refine map_congr_left fun element _ => ?_
    simp [Reading.terms, Expr.unlocated, picked]
  simp only [Reading.distribute, someFamily, oneFamily, results]

theorem shows_applyOperator {operator : Operator} {args : Revised (List Expr)} {r : Revised Expr}
    (shown : Forall₂ Shows found args.value) (ran : applyOperator operator args loc = .ok r) :
    ∃ c, Reading.terms.distribute operator found = some c ∧ Shows c r.value := by
  rcases applyOperator_eq_ok_cases ran with ⟨noList, rfl⟩ |
    ⟨before, elements, fold, listLoc, after, result, whole, beforeNoList, afterNoList, distributed,
      rfl⟩
  · obtain ⟨rfl, free⟩ := eq_singles_of_shows shown noList
    refine ⟨.one (.compound operator (args.value.map Expr.unlocated) none), ?_, ?_⟩
    · rw [Reading.distribute, mapM_one?_singles]
      rfl
    · rw [← Expr.unlocatedAll_eq_map]
      exact .one (.compound operator args.value loc) (Expr.isListFree_compound.mpr free)
  · rw [whole] at shown
    obtain ⟨taken, beforeFree⟩ :=
      eq_singles_of_shows (forall₂_take_append _ _ _ shown) beforeNoList
    obtain ⟨c, foundAfter, listShown, afterShown, dropped⟩ :=
      forall₂_cons_right_iff.mp (forall₂_drop_append _ _ _ shown)
    obtain ⟨rfl, afterFree⟩ := eq_singles_of_shows afterShown afterNoList
    have operands : found = singles before ++ c :: singles after := by
      rw [← take_append_drop before.length found, taken, dropped]
    rw [operands]
    cases listShown with
    | one _ free => cases Expr.not_isList_of_isListFree free
    | family _ _ _ elementsFree =>
      have resultsFree : ∀ value ∈ elements.map fun element =>
          Expr.compound operator (before ++ element :: after) element.loc,
          value.isListFree = true := by
        intro value member
        obtain ⟨element, elementMember, rfl⟩ := mem_map.mp member
        refine Expr.isListFree_compound.mpr (forall_mem_append.mpr ⟨beforeFree, ?_⟩)
        exact forall_mem_cons.mpr ⟨elementsFree element elementMember, afterFree⟩
      rw [distribute_family]
      exact shows_gathered resultsFree distributed

theorem collectiveAll_reviseList
    (each : ∀ value ∈ values, value.hasFlatKeys = true → ∀ {r}, resolve registry value = .ok r →
      ∃ c, value.collective registry Reading.terms = some c ∧ Shows c r.value)
    (flat : Expr.allHaveFlatKeys values = true) {r : Revised (List Expr)}
    (ran : reviseList (resolve registry) values = .ok r) :
    ∃ found, Expr.collectiveAll registry Reading.terms values = some found ∧
      Forall₂ Shows found r.value := by
  induction values generalizing r with
  | nil =>
    cases ran
    exact ⟨[], rfl, .nil⟩
  | cons e rest ih =>
    rw [Expr.allHaveFlatKeys, Bool.and_eq_true] at flat
    obtain ⟨first, others, firstRan, othersRan, rfl⟩ := reviseList_cons_eq_ok_iff.mp ran
    obtain ⟨c, firstRead, firstShown⟩ := each e mem_cons_self flat.1 firstRan
    obtain ⟨found, othersRead, othersShown⟩ :=
      ih (fun value member => each value (mem_cons_of_mem _ member)) flat.2 othersRan
    refine ⟨c :: found, ?_, .cons firstShown othersShown⟩
    simp only [Expr.collectiveAll, firstRead, othersRead]
    rfl

theorem collective_resolve (registry : Registry) (e : Expr) (flat : e.hasFlatKeys = true)
    {r : Revised Expr} (ran : resolve registry e = .ok r) :
    ∃ c, e.collective registry Reading.terms = some c ∧ Shows c r.value := by
  induction e using Expr.induction generalizing r with
  | atom e isAtom =>
    rw [resolve_atom isAtom] at ran
    cases ran
    refine ⟨_, ?_, .one e (Expr.isListFree_of_isAtom isAtom)⟩
    cases e with
    | subscript | list | compound => cases isAtom
    | _ => rfl
  | subscript base key loc _ =>
    by_cases keyFree : key.isListFree = true
    · have free : (Expr.subscript base key loc).isListFree = true := by
        rw [Expr.isListFree_subscript]
        exact keyFree
      rw [resolve_of_isListFree registry _ free] at ran
      cases ran
      have noList := Expr.not_isList_of_isListFree keyFree
      refine ⟨_, ?_, .one _ free⟩
      cases key with
      | list keys fold listLoc => cases noList
      | _ => rfl
    · cases key with
      | list keys fold listLoc =>
        have free := all_eq_true.mp flat
        rw [resolve_subscript_list (resolve_list_of_isListFree registry fold listLoc free) rfl] at ran
        obtain ⟨e, expanded, rfl⟩ := bind_pure_eq_ok_iff.mp ran
        exact shows_expandSubscript free expanded
      | _ => exact absurd flat keyFree
  | branch isBranch values ih =>
    cases isBranch with
    | list fold loc =>
      obtain ⟨resolved, valuesRan, noList, rfl⟩ := resolve_list_eq_ok_iff.mp ran
      obtain ⟨found, read, shown⟩ := collectiveAll_reviseList ih flat valuesRan
      obtain ⟨rfl, free⟩ := eq_singles_of_shows shown noList
      refine ⟨_, ?_, .family resolved.value fold loc free⟩
      simp only [Expr.collective, read, Option.bind_eq_bind, Option.bind_some,
        mapM_one?_singles]
      rfl
    | compound operator loc =>
      rw [resolve, resolveAll_eq_reviseList] at ran
      obtain ⟨resolved, argsRan, ran⟩ := bind_eq_ok_iff.mp ran
      obtain ⟨found, read, shown⟩ := collectiveAll_reviseList ih flat argsRan
      simp only [Expr.collective, read, Option.bind_eq_bind, Option.bind_some]
      exact shows_applyOperator shown ran

end Lists

/-- An expression whose lists are resolved has no list left and is the collective reading of the
one it was, so in every environment it has the value of that reading.  A family of booleans is
joined in the order of its list, from the left, by one operator less than it has members. -/
theorem collective_resolveRoot
    {registry : Registry} {e : Expr} {r : Revised Expr} (flatKeys : e.hasFlatKeys = true)
    (ran : Lists.resolveRoot registry e = .ok r) :
    r.value.hasNode true Expr.isList = false ∧
      (∀ env : Environment,
        e.collective registry env.reading = some (.one (env.value? r.value))) ∧
      e.collective registry Reading.terms = some (.one r.value.unlocated) ∧
      ∀ fold first rest, Expr.Joins fold.operator rest.length (first :: rest)
        (Reading.terms.gather fold first rest) := by
  obtain ⟨resolved, resolvedRan, ran⟩ := bind_eq_ok_iff.mp ran
  obtain ⟨c, read, shown⟩ := Lists.collective_resolve registry e flatKeys resolvedRan
  cases listed : resolved.value.isList with
  | true =>
    rw [listed] at ran
    cases ran
  | false =>
    rw [listed] at ran
    cases ran
    have noFamily := Lists.eq_singles_of_shows (.cons shown .nil)
      (List.forall_mem_singleton.mpr listed)
    obtain ⟨single, free⟩ := noFamily
    cases single
    refine ⟨?_, fun env => ?_, read, fun fold => Expr.joins_chain fold.operator⟩
    · simpa [Expr.isListFree] using free
    · rw [collective_map env.maps_value?, read]
      exact congrArg (some ∘ Collective.one) (env.value?_unlocated _)

/-- `not ResourceDemanded[Coal and Iron] or ResourceQuantity[Coal, Iron or Copper] + 1 < 5`: the
first list folds under its base, the second one passes the sum and folds at the comparison. -/
theorem collective_resolveRoot_twoLists :
    ∃ (e : Expr) (r : Revised Expr),
      e = .compound .or
        [.compound .not
          [.subscript ⟨"ResourceDemanded", none⟩
            (.list [.ident ⟨"Coal", none⟩ none, .ident ⟨"Iron", none⟩ none] (some .and) none) none]
          none,
          .compound .lt
            [.compound .add
              [.subscript ⟨"ResourceQuantity", none⟩
                (.list [.ident ⟨"Coal", none⟩ none, .ident ⟨"Iron", none⟩ none,
                  .ident ⟨"Copper", none⟩ none] (some .or) none) none,
                .number (.finite false 1 0) none] none,
              .number (.finite false 5 0) none] none] none ∧
      e.hasFlatKeys = true ∧ Lists.resolveRoot Registry.builtin e = .ok r ∧
      r.value.hasNode true Expr.isList = false ∧
      (∀ env : Environment,
        e.collective Registry.builtin env.reading = some (.one (env.value? r.value))) ∧
      e.collective Registry.builtin Reading.terms = some (.one r.value.unlocated) := by
  generalize whole : Expr.compound .or _ none = e
  have resolves : (Lists.resolveRoot Registry.builtin e).toOption.isSome = true := by
    rw [← whole]
    decide +kernel
  have flatKeys : e.hasFlatKeys = true := by
    rw [← whole]
    decide +kernel
  cases ran : Lists.resolveRoot Registry.builtin e with
  | error failure =>
      rw [ran] at resolves
      cases resolves
  | ok r =>
      obtain ⟨noList, valued, read, _⟩ := collective_resolveRoot flatKeys ran
      exact ⟨e, r, rfl, flatKeys, ran, noList, valued, read⟩

end AutomationScript
