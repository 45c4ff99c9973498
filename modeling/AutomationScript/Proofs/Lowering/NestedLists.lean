import AutomationScript.Proofs.Lowering.Spread
import AutomationScript.Proofs.Lowering.Unlocated
import AutomationScript.Registry.Builtin

/-!
# Lists of members below a base

Several members of a family below one base are written as a list of members or as a list of keys:
`SettingDefault[JobPriority.hunter, JobPriority.farmer and]` or
`SettingDefault[JobPriority[hunter, farmer and]]`.  Both come to the same if the members are no
booleans.  If they are, a list of keys folds, and the base has an operator as its key, which is
refused.
-/

namespace AutomationScript

open List

variable {e e' : Expr} {fold : Option Fold} {loc : Option Location} {revised : Revised Expr}

namespace Expr

/-- An expression with a hole in it. -/
inductive Context where
  | hole
  | key (base : Ident) (inner : Context) (loc : Option Location)
  | element (before : List Expr) (inner : Context) (after : List Expr) (fold : Option Fold)
      (loc : Option Location)
  | operand (operator : Operator) (before : List Expr) (inner : Context) (after : List Expr)
      (loc : Option Location)

def Context.fill (e : Expr) : Context → Expr
  | .hole => e
  | .key base inner loc => .subscript base (inner.fill e) loc
  | .element before inner after fold loc => .list (before ++ inner.fill e :: after) fold loc
  | .operand operator before inner after loc =>
    .compound operator (before ++ inner.fill e :: after) loc

/-- `base[family[key, …, key fold]]`. -/
def listOfKeys (base family : Ident) (keys : List Ident) (fold : Option Fold) : Expr :=
  let keys := keys.map fun key => Expr.ident key none
  .subscript base (.subscript family (.list keys fold none) none) none

/-- `base[family.key, …, family.key fold]`. -/
def listOfMembers (base family : Ident) (keys : List Ident) (fold : Option Fold) : Expr :=
  let members := keys.map fun key => Expr.subscript family (.ident key none) none
  .subscript base (.list members fold none) none

end Expr

/-- Resolves the lists, then the aliases and then the families in a value or condition. -/
def lowerReferences (registry : Registry) (e : Expr) : Lowering Expr := do
  let listed ← Lists.resolveRoot registry e
  let aliased ← Alias.resolve registry listed.value
  let resolved ← Families.resolve registry aliased.value
  return resolved.value

theorem lowerReferences_unlocated (registry : Registry) (e : Expr) :
    lowerReferences registry e.unlocated =
      unlocating Expr.unlocated (lowerReferences registry e) := by
  simp only [lowerReferences, Lists.resolveRoot_unlocated registry e]
  refine unlocating_bind fun listed => ?_
  simp only [Revised.map, Alias.resolve_unlocated registry listed.value]
  refine unlocating_bind fun aliased => ?_
  simp only [Revised.map, Families.resolve_unlocated registry aliased.value]
  exact unlocating_bind fun resolved => rfl

namespace Lists

variable {registry : Registry}

/-! ## Expressions with a hole -/

theorem resolveAll_congr (same : resolve registry e = resolve registry e')
    (before after : List Expr) :
    resolveAll registry (before ++ e :: after) = resolveAll registry (before ++ e' :: after) := by
  induction before with
  | nil => rw [nil_append, nil_append, resolveAll, resolveAll, same]
  | cons first rest ih => rw [cons_append, cons_append, resolveAll, resolveAll, ih]

theorem resolve_fill_congr (same : resolve registry e = resolve registry e')
    (context : Expr.Context) :
    resolve registry (context.fill e) = resolve registry (context.fill e') := by
  induction context with
  | hole => exact same
  | key base inner loc ih => rw [Expr.Context.fill, Expr.Context.fill, resolve, resolve, ih]
  | element before inner after fold loc ih =>
    rw [Expr.Context.fill, Expr.Context.fill, resolve, resolve, resolveAll_congr ih]
  | operand operator before inner after loc ih =>
    rw [Expr.Context.fill, Expr.Context.fill, resolve, resolve, resolveAll_congr ih]

theorem surfaces_expandSubscript {holds : Expr → Prop} (surfaces : Expr.Surfaces holds)
    (keyed : ∀ {base key loc}, holds key → holds (.subscript base key loc)) {base : Ident}
    {keys : List Expr} {listLoc : Option Location}
    (ran : expandSubscript registry base keys fold listLoc loc = .ok e)
    (inside : keys ≠ [] → ∃ key ∈ keys, holds key) : holds e ∨ e.isEmptyList = true := by
  obtain ⟨type, _, continued⟩ := bind_eq_ok_iff.mp ran
  dsimp only at continued
  cases keys with
  | nil =>
    by_cases boolean : type = some .boolean
    · rw [if_pos boolean] at continued
      exact absurd continued (foldValues_nil_ne_ok fold listLoc e)
    · rw [if_neg boolean] at continued
      cases continued
      exact .inr rfl
  | cons first rest =>
    obtain ⟨key, member, found⟩ := inside (cons_ne_nil _ _)
    have below : ∃ value ∈ (first :: rest).map fun key => Expr.subscript base key key.loc,
        holds value :=
      ⟨_, mem_map_of_mem member, keyed found⟩
    by_cases boolean : type = some .boolean
    · rw [if_pos boolean] at continued
      exact .inl (surfaces_foldValues surfaces continued below)
    · rw [if_neg boolean] at continued
      cases continued
      obtain ⟨value, member, found⟩ := below
      exact .inl (surfaces (.list fold loc) member found)

/-- What is found when the hole is resolved is found when the whole is, unless there is nothing
left of it. -/
theorem holds_resolve_fill {holds : Expr → Prop} (spreads : Expr.Spreads holds)
    (keyed : ∀ {base key loc}, holds key → holds (.subscript base key loc))
    (found : ∀ {revised}, resolve registry e = .ok revised → holds revised.value)
    (context : Expr.Context) (ran : resolve registry (context.fill e) = .ok revised) :
    holds revised.value ∨ revised.value.isEmptyList = true := by
  induction context generalizing revised with
  | hole => exact .inl (found ran)
  | key base inner loc ih =>
    rw [Expr.Context.fill, resolve] at ran
    obtain ⟨key, keyRan, continued⟩ := bind_eq_ok_iff.mp ran
    have inKey := ih keyRan
    obtain ⟨value, fresh⟩ := key
    cases value with
    | list keys fold listLoc =>
      obtain ⟨expanded, expandedRan, rfl⟩ := bind_pure_eq_ok_iff.mp continued
      refine surfaces_expandSubscript spreads.surfaces keyed expandedRan fun nonempty => ?_
      rcases inKey with found | empty
      · exact (spreads (.list fold listLoc)).mp found
      · rw [Expr.not_isEmptyList_of_ne_nil nonempty] at empty
        cases empty
    | _ =>
      cases continued
      rcases inKey with found | empty
      · exact .inl (keyed found)
      · cases empty
  | element before inner after fold loc ih =>
    obtain ⟨values, valuesRan, noList, rfl⟩ := resolve_list_eq_ok_iff.mp ran
    obtain ⟨value, valueRan, member⟩ := exists_of_mem_of_reviseList valuesRan
      (mem_append_right before mem_cons_self)
    exact .inl (surfaces_elements spreads.surfaces noList ⟨_, member, ih valueRan⟩ fold loc)
  | operand operator before inner after loc ih =>
    rw [Expr.Context.fill, resolve, resolveAll_eq_reviseList] at ran
    obtain ⟨args, argsRan, continued⟩ := bind_eq_ok_iff.mp ran
    obtain ⟨arg, argRan, member⟩ := exists_of_mem_of_reviseList argsRan
      (mem_append_right before mem_cons_self)
    exact spreads_applyOperator spreads continued ⟨_, member, ih argRan⟩

end Lists

/-- The type of the members of a family, which a category of its name can say otherwise. -/
def Registry.memberType (registry : Registry) (name : String) (family : Family) : ValueType :=
  ((registry.category? name).bind Category.type).getD family.type

namespace Lists

variable {registry : Registry} {declared : Family} {family : Ident}

theorem baseType_of_family (isFamily : registry.family? family.name = some declared)
    (keys : List Expr) :
    baseType registry family.name keys = .ok (some (registry.memberType family.name declared)) := by
  unfold baseType Registry.memberType
  cases (registry.category? family.name).bind Category.type with
  | some type => rfl
  | none =>
    rw [isFamily]
    rfl

theorem expandSubscript_of_family (isFamily : registry.family? family.name = some declared)
    (keys : List Ident) (fold : Option Fold) :
    expandSubscript registry family (keys.map fun key => .ident key none) fold none none =
      if registry.memberType family.name declared = .boolean then
        foldValues fold none (keys.map fun key => .subscript family (.ident key none) none)
      else
        .ok (.list (keys.map fun key => .subscript family (.ident key none) none) fold none) := by
  have members : (keys.map fun key => Expr.ident key none).map
        (fun key => Expr.subscript family key key.loc) =
      keys.map fun key => .subscript family (.ident key none) none := by
    rw [map_map]
    rfl
  rw [expandSubscript, baseType_of_family isFamily, members]
  by_cases booleans : registry.memberType family.name declared = .boolean
  · rw [if_pos booleans, booleans]
    rfl
  · rw [if_neg booleans]
    exact if_neg (mt Option.some.inj booleans)

theorem resolve_keys (keys : List Ident) (fold : Option Fold) :
    resolve registry (.list (keys.map fun key => .ident key none) fold none) =
      .ok (.kept (.list (keys.map fun key => .ident key none) fold none)) :=
  resolve_list_of_isListFree registry fold none (forall_mem_map.mpr fun _ _ => rfl)

/-- The keys of a family without booleans reach the base as a list of members. -/
theorem resolve_listOfKeys (isFamily : registry.family? family.name = some declared)
    (noBooleans : registry.memberType family.name declared ≠ .boolean) (base : Ident)
    (keys : List Ident) (fold : Option Fold) :
    resolve registry (.listOfKeys base family keys fold) =
      resolve registry (.listOfMembers base family keys fold) := by
  have inner : resolve registry
        (.subscript family (.list (keys.map fun key => .ident key none) fold none) none) =
      .ok (.new
        (.list (keys.map fun key => .subscript family (.ident key none) none) fold none)) := by
    rw [resolve_subscript_list (resolve_keys keys fold) rfl, expandSubscript_of_family isFamily,
      if_neg noBooleans]
    rfl
  rw [Expr.listOfKeys, Expr.listOfMembers, resolve_subscript_list inner rfl,
    resolve_subscript_list
      (resolve_list_of_isListFree registry fold none (forall_mem_map.mpr fun _ _ => rfl)) rfl]

theorem exists_foldl_compound (operator : Operator) (loc : Option Location) (first next : Expr)
    (rest : List Expr) :
    ∃ args, (next :: rest).foldl (fun all next => Expr.compound operator [all, next] loc) first =
      .compound operator args loc := by
  induction rest generalizing first next with
  | nil => exact ⟨[first, next], rfl⟩
  | cons other others ih => exact ih (.compound operator [first, next] loc) other

/-- The keys of a family of booleans reach the base as an operator. -/
theorem resolve_listOfKeys_booleans (isFamily : registry.family? family.name = some declared)
    (booleans : registry.memberType family.name declared = .boolean) {base : Ident}
    {keys : List Ident} (several : 2 ≤ keys.length)
    (ran : resolve registry (.listOfKeys base family keys fold) = .ok revised) :
    ∃ operator args, revised.value = .subscript base (.compound operator args none) none := by
  obtain ⟨first, next, rest, rfl⟩ : ∃ first next rest, keys = first :: next :: rest := by
    cases keys with
    | nil => cases several
    | cons first others =>
      cases others with
      | nil => exact absurd several (Nat.not_succ_le_self 1)
      | cons next rest => exact ⟨first, next, rest, rfl⟩
  rw [Expr.listOfKeys, resolve] at ran
  obtain ⟨key, keyRan, continued⟩ := bind_eq_ok_iff.mp ran
  rw [resolve_subscript_list (resolve_keys _ fold) rfl, expandSubscript_of_family isFamily,
    if_pos booleans] at keyRan
  obtain ⟨folded, foldedRan, rfl⟩ := bind_pure_eq_ok_iff.mp keyRan
  cases fold with
  | none => cases foldedRan
  | some fold =>
    cases foldedRan
    obtain ⟨args, isOperator⟩ := exists_foldl_compound fold.operator none
      (.subscript family (.ident first none) none) (.subscript family (.ident next none) none)
      (rest.map fun key => .subscript family (.ident key none) none)
    simp only [map_cons, isOperator] at continued
    cases continued
    exact ⟨fold.operator, args, rfl⟩

end Lists

/-! ## Operators as keys -/

namespace Expr

/-- Somewhere in the expression an operator is the key of a subscript. -/
inductive HasOperatorKey : Expr → Prop where
  | here (base : Ident) (operator : Operator) (args : List Expr) (keyLoc loc : Option Location) :
      HasOperatorKey (.subscript base (.compound operator args keyLoc) loc)
  | key (base : Ident) {key : Expr} (loc : Option Location) :
      HasOperatorKey key →
      HasOperatorKey (.subscript base key loc)
  | element {values : List Expr} (fold : Option Fold) (loc : Option Location) {value : Expr} :
      value ∈ values →
      HasOperatorKey value →
      HasOperatorKey (.list values fold loc)
  | operand (operator : Operator) {args : List Expr} (loc : Option Location) {arg : Expr} :
      arg ∈ args →
      HasOperatorKey arg →
      HasOperatorKey (.compound operator args loc)

namespace HasOperatorKey

theorem spreads : Spreads HasOperatorKey := by
  intro build values isBranch
  cases isBranch with
  | list fold loc =>
    refine ⟨fun found => ?_, fun ⟨_, member, inside⟩ => .element fold loc member inside⟩
    cases found with
    | element _ _ member inside => exact ⟨_, member, inside⟩
  | compound operator loc =>
    refine ⟨fun found => ?_, fun ⟨_, member, inside⟩ => .operand operator loc member inside⟩
    cases found with
    | operand _ _ member inside => exact ⟨_, member, inside⟩

theorem name?_key {base : Ident} {key : Expr} (found : HasOperatorKey (.subscript base key loc)) :
    key.name? = none := by
  cases found with
  | here => rfl
  | key _ _ inside => cases inside <;> rfl

theorem exists_subscript (found : e.HasOperatorKey) (single : e.isSingle = true) :
    ∃ base key loc, e = .subscript base key loc := by
  cases found with
  | here base operator args keyLoc loc => exact ⟨base, _, loc, rfl⟩
  | key base loc inside => exact ⟨base, _, loc, rfl⟩
  | element => cases single
  | operand => cases single

end HasOperatorKey

end Expr

variable {registry : Registry}

theorem Alias.resolveSubscript_eq_ok_iff {base : Ident} {key : Expr} (unnamed : key.name? = none) :
    resolveSubscript registry base key loc = .ok revised ↔
      (base.name = evalName ∨ isSettingBase base.name ∨ (registry.family? base.name).isSome) ∧
        revised = .kept (.subscript base key loc) := by
  rw [resolveSubscript]
  split
  · next isLeft => exact ⟨fun ran => ⟨isLeft, (Except.ok.inj ran).symm⟩, fun same => same.2 ▸ rfl⟩
  · next notLeft =>
      refine ⟨fun ran => ?_, fun same => absurd same.1 notLeft⟩
      cases found : registry.category? base.name with
      | none =>
        rw [found] at ran
        cases ran
      | some category =>
        rw [found] at ran
        cases key with
        | ident word keyLoc => cases unnamed
        | _ => cases ran

theorem Alias.hasOperatorKey_resolve (found : e.HasOperatorKey)
    (ran : resolve registry e = .ok revised) : revised.value.HasOperatorKey := by
  unfold resolve at ran
  refine Expr.HasOperatorKey.spreads.revise Expr.HasOperatorKey.spreads.surfaces
    (fun isBranch _ => by cases isBranch <;> rfl) ?_ e found ran
  intro node revised single found nodeRan
  obtain ⟨base, key, loc, rfl⟩ := found.exists_subscript single
  rw [((resolveSubscript_eq_ok_iff found.name?_key).mp nodeRan).2]
  exact found

namespace Families

variable {registry : Registry} {base : Ident} {key : Expr}

theorem memberId_ne_ok (unnamed : key.name? = none) (id : Ident) :
    memberId registry base key ≠ .ok id := by
  intro ran
  unfold memberId at ran
  rw [unnamed] at ran
  cases found : registry.family? base.name with
  | none =>
    rw [found] at ran
    cases ran
  | some family =>
    rw [found] at ran
    cases ran

/-- Families are resolved only where all keys are names, or members below the base of settings. -/
theorem resolveSubscript_ne_ok (found : (Expr.subscript base key loc).HasOperatorKey)
    (revised : Revised Expr) : resolveSubscript registry base key loc ≠ .ok revised := by
  intro ran
  unfold resolveSubscript at ran
  dsimp only at ran
  split at ran
  · obtain ⟨id, idRan, _⟩ := bind_eq_ok_iff.mp ran
    exact memberId_ne_ok found.name?_key id idRan
  · split at ran
    · cases key with
      | ident word keyLoc => cases found.name?_key
      | subscript innerBase innerKey keyLoc =>
        obtain ⟨id, idRan, _⟩ := bind_eq_ok_iff.mp ran
        cases found with
        | key _ _ inside => exact memberId_ne_ok inside.name?_key id idRan
      | _ => cases ran
    · rw [found.name?_key] at ran
      cases ran

theorem resolve_ne_ok (found : e.HasOperatorKey) (revised : Revised Expr) :
    resolve registry e ≠ .ok revised := by
  intro ran
  unfold resolve at ran
  refine @Expr.Spreads.revise _ _ (fun _ => False) Expr.HasOperatorKey.spreads (fun _ _ found => found)
    (fun isBranch _ => by cases isBranch <;> rfl) ?_ e found _ ran
  intro node revised single found nodeRan
  obtain ⟨base, key, loc, rfl⟩ := found.exists_subscript single
  exact resolveSubscript_ne_ok found revised nodeRan

end Families

theorem lowerReferences_ne_ok_of_unlocated (same : e.unlocated = e'.unlocated)
    (refused : ∀ lowered, lowerReferences registry e' ≠ .ok lowered) (lowered : Expr) :
    lowerReferences registry e ≠ .ok lowered := by
  intro ran
  have unlocated := lowerReferences_unlocated registry e
  rw [same, lowerReferences_unlocated, ran] at unlocated
  cases found : lowerReferences registry e' with
  | error failure =>
    rw [found] at unlocated
    cases unlocated
  | ok result => exact refused result found

/-- Wherever they stand below a base, a list of keys of a family and a list of its members come to
the same, or are refused for the same reason, if the members are no booleans.  Two keys or more of a
family of booleans are refused as a list of keys, whatever they stand below and wherever. -/
theorem lowerReferences_listOfKeys
    {registry : Registry} (base family : Ident) {declared : Family}
    (isFamily : registry.family? family.name = some declared) (keys : List Ident)
    (fold : Option Fold) (context : Expr.Context) {e e' : Expr}
    (ofKeys : e.unlocated = (context.fill (.listOfKeys base family keys fold)).unlocated)
    (ofMembers : e'.unlocated = (context.fill (.listOfMembers base family keys fold)).unlocated) :
    (registry.memberType family.name declared ≠ .boolean →
      unlocating Expr.unlocated (lowerReferences registry e) =
        unlocating Expr.unlocated (lowerReferences registry e')) ∧
    (registry.memberType family.name declared = .boolean → 2 ≤ keys.length →
      ∀ lowered, lowerReferences registry e ≠ .ok lowered) := by
  constructor
  · intro noBooleans
    have resolved := Lists.resolve_fill_congr
      (Lists.resolve_listOfKeys isFamily noBooleans base keys fold) context
    have lowered : lowerReferences registry (context.fill (.listOfKeys base family keys fold)) =
        lowerReferences registry (context.fill (.listOfMembers base family keys fold)) := by
      rw [lowerReferences, lowerReferences, Lists.resolveRoot, Lists.resolveRoot, resolved]
    rw [← lowerReferences_unlocated, ← lowerReferences_unlocated, ofKeys, ofMembers,
      lowerReferences_unlocated, lowerReferences_unlocated, lowered]
  · intro booleans several
    refine lowerReferences_ne_ok_of_unlocated ofKeys fun lowered ran => ?_
    obtain ⟨listed, listedRan, continued⟩ := bind_eq_ok_iff.mp ran
    obtain ⟨aliased, aliasedRan, continued⟩ := bind_eq_ok_iff.mp continued
    obtain ⟨resolved, resolvedRan, _⟩ := bind_eq_ok_iff.mp continued
    obtain ⟨listedRan, single⟩ := Lists.resolveRoot_eq_ok_iff.mp listedRan
    have found := Lists.holds_resolve_fill Expr.HasOperatorKey.spreads (.key _ _)
      (fun {revised} holeRan => by
        obtain ⟨operator, args, isKey⟩ :=
          Lists.resolve_listOfKeys_booleans isFamily booleans several holeRan
        rw [isKey]
        exact .here base operator args none none) context listedRan
    rcases found with found | empty
    · exact Families.resolve_ne_ok (Alias.hasOperatorKey_resolve found aliasedRan) resolved
        resolvedRan
    · rw [Expr.isList_of_isEmptyList empty] at single
      cases single

/-- `SettingDefault[JobPriority[hunter, farmer and]] > 3` is lowered as it is with a list of
members, and `not SettingCurrent[Sell[Coal, Iron or]]` is refused. -/
theorem lowerReferences_listOfKeys_jobsAndSales :
    unlocating Expr.unlocated (lowerReferences Registry.builtin (.compound .gt
      [.listOfKeys ⟨settingDefault, none⟩ ⟨"JobPriority", none⟩ [⟨"hunter", none⟩, ⟨"farmer", none⟩]
        (some .and), .number (.ofInt 3) none] none)) =
      .ok (.compound .and
        [.compound .gt [.subscript ⟨settingDefault, none⟩ (.ident ⟨"job_p_hunter", none⟩ none) none,
          .number (.ofInt 3) none] none,
        .compound .gt [.subscript ⟨settingDefault, none⟩ (.ident ⟨"job_p_farmer", none⟩ none) none,
          .number (.ofInt 3) none] none] none) ∧
    ∀ lowered, lowerReferences Registry.builtin (.compound .not
      [.listOfKeys ⟨settingCurrent, none⟩ ⟨"Sell", none⟩ [⟨"Coal", none⟩, ⟨"Iron", none⟩]
        (some .or)] none) ≠ .ok lowered := by
  have jobs : (Registry.builtin.family? "JobPriority").map
      (Registry.builtin.memberType "JobPriority") = some .number := by decide +kernel
  have sales : (Registry.builtin.family? "Sell").map (Registry.builtin.memberType "Sell") =
      some .boolean := by decide +kernel
  obtain ⟨jobFamily, isJobs, jobType⟩ := Option.map_eq_some_iff.mp jobs
  obtain ⟨saleFamily, isSales, saleType⟩ := Option.map_eq_some_iff.mp sales
  constructor
  · have noBooleans : Registry.builtin.memberType "JobPriority" jobFamily ≠ .boolean := by
      rw [jobType]
      decide
    have same := (lowerReferences_listOfKeys ⟨settingDefault, none⟩ ⟨"JobPriority", none⟩ isJobs
      [⟨"hunter", none⟩, ⟨"farmer", none⟩] (some .and)
      (.operand .gt [] .hole [.number (.ofInt 3) none] none) rfl rfl).1 noBooleans
    exact same.trans rfl
  · exact (lowerReferences_listOfKeys ⟨settingCurrent, none⟩ ⟨"Sell", none⟩ isSales
      [⟨"Coal", none⟩, ⟨"Iron", none⟩] (some .or) (.operand .not [] .hole [] none) rfl rfl).2
      saleType (by decide)

/-- `SettingCurrent[Sell[Coal, Iron and]]` is refused where
`SettingCurrent[Sell.Coal, Sell.Iron and]` is not. -/
theorem lowerReferences_listOfKeys_sales :
    lowerReferences Registry.builtin (.listOfKeys ⟨settingCurrent, none⟩ ⟨"Sell", none⟩
      [⟨"Coal", none⟩, ⟨"Iron", none⟩] (some .and)) = refuse .identifierExpected none ∧
    lowerReferences Registry.builtin (.listOfMembers ⟨settingCurrent, none⟩ ⟨"Sell", none⟩
      [⟨"Coal", none⟩, ⟨"Iron", none⟩] (some .and)) =
      .ok (.compound .and
        [.subscript ⟨settingCurrent, none⟩ (.ident ⟨"sellCoal", none⟩ none) none,
          .subscript ⟨settingCurrent, none⟩ (.ident ⟨"sellIron", none⟩ none) none] none) :=
  ⟨rfl, rfl⟩

end AutomationScript
