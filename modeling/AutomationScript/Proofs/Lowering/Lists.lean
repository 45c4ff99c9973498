import AutomationScript.Proofs.Lowering.Descents

/-!
# Forms after lists are resolved

Resolving the lists of a program leaves none in its values and conditions.  Targets can keep lists:
only the outermost list of a target's key is unrolled.
-/

namespace AutomationScript

open List

def Forms.withoutLists (f : Forms) : Forms :=
  { f with lists := False }

namespace Lists

variable {f : Forms}
variable {e : Expr} {values args : List Expr}

/-- An expression without lists, or one list of such expressions. -/
inductive Resolved (f : Forms) : Expr → Prop where
  | single (e : Expr) :
      e.Written f.withoutLists →
      Resolved f e
  | listed (values : List Expr) (fold : Option Fold) (loc : Option Location) :
      (∀ value ∈ values, value.Written f.withoutLists) →
      Resolved f (.list values fold loc)

theorem Resolved.written (resolved : Resolved f e) (noList : e.isList = false) :
    e.Written f.withoutLists := by
  cases resolved with
  | single _ written => exact written
  | listed values fold loc each => cases noList

variable {fold : Option Fold} {loc : Option Location}

theorem Resolved.elements (resolved : Resolved f (.list values fold loc)) :
    ∀ value ∈ values, value.Written f.withoutLists := by
  cases resolved with
  | single _ written =>
    cases written with
    | list _ _ _ impossible _ => exact impossible.elim
  | listed _ _ _ each => exact each

theorem not_isList_of_written (written : e.Written f.withoutLists) : e.isList = false := by
  cases written with
  | list values fold loc impossible each => exact impossible.elim
  | _ => rfl

/-! ## Types of keys -/

theorem yields_sharedSettingType (registry : Registry) (shared : Option ValueType)
    (keys : List Expr) : Yields (fun _ => True) (sharedSettingType registry shared keys) := by
  induction keys generalizing shared with
  | nil =>
    exact True.intro
  | cons key rest ih =>
    rw [sharedSettingType]
    cases settingElementType? registry key with
    | none => exact Yields.of_refuse _ _
    | some type =>
      dsimp only
      split
      · exact Yields.of_refuse _ _
      · exact ih _

theorem yields_sharedOtherType (registry : Registry) (shared : Option ValueType)
    (keys : List Expr) : Yields (fun _ => True) (sharedOtherType registry shared keys) := by
  induction keys generalizing shared with
  | nil =>
    exact True.intro
  | cons key rest ih =>
    rw [sharedOtherType]
    cases otherElementType? registry key with
    | none => exact ih _
    | some type =>
      dsimp only
      split
      · exact Yields.of_refuse _ _
      · exact ih _

theorem yields_baseType (registry : Registry) (base : String) (keys : List Expr) :
    Yields (fun _ => True) (baseType registry base keys) := by
  unfold baseType
  split
  · exact True.intro
  · split
    · exact True.intro
    · split
      · exact yields_sharedSettingType registry none keys
      · split
        · exact yields_sharedOtherType registry none keys
        · exact True.intro

/-! ## Folding and distributing -/

theorem written_foldl {g : Forms} (operator : Operator) (notNot : operator ≠ .not)
    (loc : Option Location) {first : Expr} (firstWritten : first.Written g) {rest : List Expr}
    (restWritten : ∀ e ∈ rest, e.Written g) :
    (rest.foldl (fun all next => Expr.compound operator [all, next] loc) first).Written g := by
  induction rest generalizing first with
  | nil =>
    exact firstWritten
  | cons next others ih =>
    obtain ⟨nextWritten, othersWritten⟩ := forall_mem_cons.mp restWritten
    exact ih (.binary notNot firstWritten nextWritten loc) othersWritten

theorem yields_foldValues {g : Forms} (fold : Option Fold) (loc : Option Location)
    (each : ∀ value ∈ values, value.Written g) :
    Yields (Expr.Written g) (foldValues fold loc values) := by
  unfold foldValues
  cases fold with
  | none => exact Yields.of_refuse _ _
  | some fold =>
    cases values with
    | nil => exact Yields.of_refuse _ _
    | cons first rest =>
      obtain ⟨firstWritten, restWritten⟩ := forall_mem_cons.mp each
      have notNot : fold.operator ≠ .not := by
        cases fold <;> exact nofun
      exact written_foldl fold.operator notNot loc firstWritten restWritten

variable {keys : List Expr}

theorem yields_expandSubscript (registry : Registry) (base : Ident) (fold : Option Fold)
    (listLoc loc : Option Location) (each : ∀ key ∈ keys, key.Written f.withoutLists) :
    Yields (Resolved f) (expandSubscript registry base keys fold listLoc loc) := by
  have subscripts : ∀ value ∈ keys.map fun key => Expr.subscript base key key.loc,
      value.Written f.withoutLists := by
    intro value member
    obtain ⟨key, keyMember, rfl⟩ := mem_map.mp member
    exact .subscript base key key.loc (each key keyMember)
  refine (yields_baseType registry base.name keys).bind fun type _ => ?_
  dsimp only
  split
  · exact (yields_foldValues fold listLoc subscripts).mono fun e written => .single e written
  · exact Resolved.listed _ fold loc subscripts

theorem yields_distribute (operator : Operator) (fold : Option Fold)
    (listLoc loc : Option Location) {before after elements : List Expr}
    (arity : before.length + 1 + after.length = operator.arity)
    (beforeWritten : ∀ e ∈ before, e.Written f.withoutLists)
    (afterWritten : ∀ e ∈ after, e.Written f.withoutLists)
    (elementsWritten : ∀ e ∈ elements, e.Written f.withoutLists) :
    Yields (Resolved f) (distribute operator before (.list elements fold listLoc) after loc) := by
  have results : ∀ value ∈ elements.map fun element =>
        Expr.compound operator (before ++ element :: after) element.loc,
      value.Written f.withoutLists := by
    intro value member
    obtain ⟨element, elementMember, rfl⟩ := mem_map.mp member
    refine .compound operator _ _ ?_ ?_
    · rw [length_append, length_cons]
      omega
    · have tailWritten := forall_mem_cons.mpr
        ⟨elementsWritten element elementMember, afterWritten⟩
      exact forall_mem_append.mpr ⟨beforeWritten, tailWritten⟩
  unfold distribute
  dsimp only
  split
  · exact (yields_foldValues fold listLoc results).mono fun e written => .single e written
  · exact Resolved.listed _ fold loc results

theorem splitAtList_eq_some {before after : List Expr} {found : Expr}
    (split : splitAtList args = some (before, found, after)) :
    args = before ++ found :: after ∧ found.isList = true ∧ ∀ e ∈ before, e.isList = false := by
  induction args generalizing before with
  | nil =>
    cases split
  | cons e rest ih =>
    rw [splitAtList] at split
    by_cases listed : e.isList = true
    · rw [if_pos listed] at split
      cases split
      exact ⟨rfl, listed, forall_mem_nil _⟩
    · rw [if_neg listed] at split
      obtain ⟨⟨front, _, _⟩, restSplit, same⟩ := Option.map_eq_some_iff.mp split
      cases same
      obtain ⟨rfl, foundListed, frontNoList⟩ := ih restSplit
      refine ⟨rfl, foundListed, forall_mem_cons.mpr ⟨?_, frontNoList⟩⟩
      exact Bool.eq_false_iff.mpr listed

theorem splitAtList_eq_none (noList : ∀ arg ∈ args, arg.isList = false) :
    splitAtList args = none := by
  induction args with
  | nil =>
    rfl
  | cons e rest ih =>
    obtain ⟨first, others⟩ := forall_mem_cons.mp noList
    rw [splitAtList, first, ih others]
    rfl

theorem not_isList_of_splitAtList (split : splitAtList args = none) :
    ∀ e ∈ args, e.isList = false := by
  induction args with
  | nil =>
    exact forall_mem_nil _
  | cons e rest ih =>
    rw [splitAtList] at split
    by_cases listed : e.isList = true
    · rw [if_pos listed] at split
      cases split
    · rw [if_neg listed] at split
      refine forall_mem_cons.mpr ⟨Bool.eq_false_iff.mpr listed, ?_⟩
      exact ih (Option.map_eq_none_iff.mp split)

theorem written_of_resolved (resolved : ∀ value ∈ values, Resolved f value)
    (noList : ∀ value ∈ values, value.isList = false) :
    ∀ value ∈ values, value.Written f.withoutLists :=
  fun value member => (resolved value member).written (noList value member)

theorem not_isList_of_find? (absent : values.find? Expr.isList = none) :
    ∀ value ∈ values, value.isList = false :=
  fun value member => Bool.eq_false_iff.mpr (find?_eq_none.mp absent value member)

/-! ## Resolving -/

theorem applyOperator_eq_compound (operator : Operator) (loc : Option Location)
    {args : Revised (List Expr)} (noList : ∀ arg ∈ args.value, arg.isList = false) :
    applyOperator operator args loc = .ok (args.map (.compound operator · loc)) := by
  rw [applyOperator, splitAtList_eq_none noList]
  rfl

/-- An operator is applied to operands without a list, or said of each element of the one list
among them. -/
theorem applyOperator_eq_ok_cases {operator : Operator} {args : Revised (List Expr)}
    {revised : Revised Expr} (ran : applyOperator operator args loc = .ok revised) :
    ((∀ arg ∈ args.value, arg.isList = false) ∧ revised = args.map (.compound operator · loc)) ∨
      ∃ before elements fold listLoc after result,
        args.value = before ++ .list elements fold listLoc :: after ∧
        (∀ e ∈ before, e.isList = false) ∧ (∀ e ∈ after, e.isList = false) ∧
        distribute operator before (.list elements fold listLoc) after loc = .ok result ∧
        revised = .new result := by
  unfold applyOperator at ran
  cases split : splitAtList args.value with
  | none =>
    rw [split] at ran
    cases ran
    exact .inl ⟨not_isList_of_splitAtList split, rfl⟩
  | some parts =>
    obtain ⟨before, list, after⟩ := parts
    rw [split] at ran
    obtain ⟨whole, listed, beforeNoList⟩ := splitAtList_eq_some split
    dsimp only at ran
    cases second : after.find? Expr.isList with
    | some nested =>
      rw [second] at ran
      cases ran
    | none =>
      rw [second] at ran
      obtain ⟨result, distributed, rfl⟩ := bind_pure_eq_ok_iff.mp ran
      cases list with
      | list elements fold listLoc =>
        exact .inr ⟨before, elements, fold, listLoc, after, result, whole, beforeNoList,
          not_isList_of_find? second, distributed, rfl⟩
      | _ => cases listed

variable {registry : Registry}

theorem resolve_list_eq_ok_iff {revised : Revised Expr} :
    resolve registry (.list values fold loc) = .ok revised ↔
      ∃ found, reviseList (resolve registry) values = .ok found ∧
        (∀ value ∈ found.value, value.isList = false) ∧ revised = found.map (.list · fold loc) := by
  rw [resolve, resolveAll_eq_reviseList, bind_eq_ok_iff]
  refine exists_congr fun found => and_congr_right fun _ => ?_
  cases nested : found.value.find? Expr.isList with
  | some second =>
    refine ⟨fun ran => (by cases ran), fun ⟨noList, _⟩ => ?_⟩
    have isList := find?_some nested
    rw [noList second (mem_of_find?_eq_some nested)] at isList
    cases isList
  | none =>
    exact ⟨fun ran => ⟨not_isList_of_find? nested, (Except.ok.inj ran).symm⟩,
      fun ⟨_, same⟩ => congrArg Except.ok same.symm⟩

theorem resolve_of_isListFree (registry : Registry) (e : Expr) (free : e.isListFree = true) :
    resolve registry e = .ok (.kept e) := by
  induction e using Expr.induction with
  | atom e isAtom => exact resolve_atom isAtom
  | subscript base key loc ih =>
    rw [Expr.isListFree_subscript] at free
    rw [resolve, ih free]
    have noList := Expr.not_isList_of_isListFree free
    cases key with
    | list values fold listLoc => cases noList
    | _ => rfl
  | branch isBranch values ih =>
    cases isBranch with
    | list fold loc => cases Expr.not_isList_of_isListFree free
    | compound operator loc =>
      have argsFree := Expr.isListFree_compound.mp free
      have kept := reviseList_eq_kept fun arg member => ih arg member (argsFree arg member)
      rw [resolve, resolveAll_eq_reviseList, kept]
      exact applyOperator_eq_compound operator loc fun arg member =>
        Expr.not_isList_of_isListFree (argsFree arg member)

theorem resolve_list_of_isListFree (registry : Registry) (fold : Option Fold)
    (loc : Option Location) (free : ∀ value ∈ values, value.isListFree = true) :
    resolve registry (.list values fold loc) = .ok (.kept (.list values fold loc)) :=
  resolve_list_eq_ok_iff.mpr
    ⟨.kept values, reviseList_eq_kept fun value member =>
        resolve_of_isListFree registry value (free value member),
      fun value member => Expr.not_isList_of_isListFree (free value member), rfl⟩

theorem resolve_subscript_list {key : Revised Expr} {listLoc : Option Location}
    (ran : resolve registry e = .ok key) (listed : key.value = .list keys fold listLoc)
    (base : Ident) (loc : Option Location) :
    resolve registry (.subscript base e loc) = (do
      return .new (← expandSubscript registry base keys fold listLoc loc)) := by
  rw [resolve, ran]
  obtain ⟨value, fresh⟩ := key
  cases listed
  rfl

theorem becomes_applyOperator (operator : Operator) (loc : Option Location)
    {args : Revised (List Expr)} (arity : args.value.length = operator.arity)
    (resolved : ∀ arg ∈ args.value, Resolved f arg) :
    Becomes (Resolved f) (applyOperator operator args loc) := by
  unfold applyOperator
  cases split : splitAtList args.value with
  | none =>
    have written := written_of_resolved resolved (not_isList_of_splitAtList split)
    exact Resolved.single _ (.compound operator _ loc arity written)
  | some parts =>
    obtain ⟨before, found, after⟩ := parts
    obtain ⟨whole, foundListed, beforeNoList⟩ := splitAtList_eq_some split
    rw [whole] at arity resolved
    obtain ⟨beforeResolved, restResolved⟩ := forall_mem_append.mp resolved
    obtain ⟨foundResolved, afterResolved⟩ := forall_mem_cons.mp restResolved
    cases found with
    | list elements fold listLoc =>
      dsimp only
      cases second : after.find? Expr.isList with
      | some nested => exact Yields.of_refuse _ _
      | none =>
        have count : before.length + 1 + after.length = operator.arity := by
          rw [length_append, length_cons] at arity
          omega
        have distributed := yields_distribute operator fold listLoc loc count
          (written_of_resolved beforeResolved beforeNoList)
          (written_of_resolved afterResolved (not_isList_of_find? second))
          foundResolved.elements
        exact distributed.bind fun _ isResolved => isResolved
    | _ => cases foundListed

theorem becomes_resolve (registry : Registry) (e : Expr) (written : e.Written f) :
    Becomes (Resolved f) (resolve registry e) := by
  induction e using Expr.induction with
  | atom e isAtom =>
    rw [resolve_atom isAtom]
    cases written with
    | ident word loc named => exact Resolved.single _ (.ident word loc named)
    | wildcard loc allowed => exact Resolved.single _ (.wildcard loc allowed)
    | placeholder loc allowed => exact Resolved.single _ (.placeholder loc allowed)
    | string value loc => exact Resolved.single _ (.string value loc)
    | number value loc => exact Resolved.single _ (.number value loc)
    | boolean value loc => exact Resolved.single _ (.boolean value loc)
    | _ => cases isAtom
  | subscript base key loc ih =>
    cases written with
    | raw _ text textLoc _ isEval =>
      exact Resolved.single _ (.raw base text textLoc loc isEval)
    | subscript _ _ _ keyWritten =>
      refine (ih keyWritten).bind fun revised keyResolved => ?_
      obtain ⟨value, fresh⟩ := revised
      cases keyResolved with
      | listed keys fold listLoc each =>
        refine (yields_expandSubscript registry base fold listLoc loc each).bind ?_
        exact fun _ isResolved => isResolved
      | single _ valueWritten =>
        have noList := not_isList_of_written valueWritten
        cases value with
        | list keys fold listLoc => cases noList
        | _ => exact Resolved.single _ (.subscript base _ loc valueWritten)
  | branch isBranch values ih =>
    cases isBranch with
    | list fold loc =>
      cases written with
      | list _ _ _ listed each =>
        have inside := becomes_reviseList fun value member => ih value member (each value member)
        rw [resolve, resolveAll_eq_reviseList]
        refine inside.bind fun revised resolved => ?_
        cases nested : revised.value.find? Expr.isList with
        | some found => exact Yields.of_refuse _ _
        | none =>
          exact Resolved.listed _ fold loc
            (written_of_resolved resolved.2 (not_isList_of_find? nested))
    | compound operator loc =>
      cases written with
      | compound _ _ _ arity each =>
        have inside := becomes_reviseList fun arg member => ih arg member (each arg member)
        rw [resolve, resolveAll_eq_reviseList]
        exact inside.bind fun revised resolved =>
          becomes_applyOperator operator loc (resolved.1.trans arity) resolved.2

theorem resolveRoot_eq_ok_iff {resolved : Revised Expr} :
    resolveRoot registry e = .ok resolved ↔
      resolve registry e = .ok resolved ∧ resolved.value.isList = false := by
  rw [resolveRoot, bind_eq_ok_iff]
  constructor
  · rintro ⟨found, foundRan, continued⟩
    cases isList : found.value.isList with
    | true =>
      rw [isList] at continued
      cases continued
    | false =>
      rw [isList] at continued
      cases continued
      exact ⟨foundRan, isList⟩
  · rintro ⟨ran, noList⟩
    refine ⟨resolved, ran, ?_⟩
    rw [noList]
    rfl

theorem resolveRoot_of_isListFree (registry : Registry) (free : e.isListFree = true) :
    resolveRoot registry e = .ok (.kept e) :=
  resolveRoot_eq_ok_iff.mpr
    ⟨resolve_of_isListFree registry e free, Expr.not_isList_of_isListFree free⟩

theorem becomes_resolveRoot (registry : Registry) (written : e.Written f) :
    Becomes (Expr.Written f.withoutLists) (resolveRoot registry e) := by
  refine (becomes_resolve registry e written).bind fun revised resolved => ?_
  split
  · exact Yields.of_refuse _ _
  · next notList => exact resolved.written (Bool.eq_false_iff.mpr notList)

/-! ## Statements -/

theorem blockDepth_assignments (targets : List (Revised Expr)) (value : Revised Expr)
    (condition : Revised (Option Expr)) (tag : Tag) (depth : Nat) :
    blockDepth depth (targets.map fun target => .ofParts target value condition tag) =
      some depth := by
  induction targets with
  | nil => rfl
  | cons target rest ih => exact ih

theorem yields_unrollKeys (base : Ident) (each : ∀ key ∈ keys, key.Written f) :
    Yields (fun targets => ∀ target ∈ targets, target.value.Target f) (unrollKeys base keys) := by
  induction keys with
  | nil =>
    exact Yields.of_pure (forall_mem_nil _)
  | cons key rest ih =>
    obtain ⟨keyWritten, restWritten⟩ := forall_mem_cons.mp each
    rw [unrollKeys]
    split
    · exact Yields.of_refuse _ _
    · refine (ih restWritten).bind fun others othersFit => ?_
      exact forall_mem_cons.mpr ⟨.subscript base key key.loc keyWritten, othersFit⟩

theorem yields_unroll (isTarget : e.Target f) :
    Yields (fun targets => ∀ target ∈ targets, target.value.Target f) (unroll e) := by
  have whole : ∀ target ∈ [Revised.kept e], target.value.Target f :=
    forall_mem_singleton.mpr isTarget
  cases isTarget with
  | ident word loc named => exact whole
  | subscript base key loc keyWritten =>
    cases keyWritten with
    | list keys fold listLoc listed each => exact yields_unrollKeys base each
    | _ => exact whole

theorem yields_lowerStmt (registry : Registry) {s : Stmt}
    (fits : s.Fits (Expr.Target f) (Expr.Written f)) :
    Yields (s.BecomesPart (Stmt.Fits (Expr.Target f) (Expr.Written f.withoutLists)))
      (lowerStmt registry s) := by
  cases s with
  | assign target value condition tag =>
    obtain ⟨isTarget, valueWritten, conditionWritten⟩ := fits
    refine (becomes_resolveRoot registry valueWritten).bind fun newValue newWritten => ?_
    refine (Becomes.reviseOption (fun e => becomes_resolveRoot registry) conditionWritten).bind
      fun newCondition newConditionWritten => ?_
    refine (yields_unroll isTarget).bind fun targets eachTarget => ?_
    refine Yields.of_pure ⟨fun t member => ?_, fun depth => ?_⟩
    · obtain ⟨revised, revisedMember, rfl⟩ := mem_map.mp member
      exact ⟨eachTarget revised revisedMember, newWritten, newConditionWritten⟩
    · exact blockDepth_assignments targets newValue newCondition tag depth
  | openBlock condition tag =>
    refine (becomes_resolveRoot registry fits).bind fun revised revisedWritten => ?_
    exact Stmt.BecomesPart.singleton revisedWritten fun _ => rfl
  | closeBlock tag => exact Stmt.BecomesPart.singleton fits fun depth => by cases depth <;> rfl
  | trigger condition actions tag => exact Stmt.BecomesPart.singleton fits fun _ => rfl
  | defineExpr name body tag => exact fits.elim
  | defineBlock name body tag => exact fits.elim
  | use name tag => exact fits.elim

theorem yields_lower (registry : Registry) {program : List Stmt}
    (composed : Composed (Stmt.Fits (Expr.Target f) (Expr.Written f)) program) :
    Yields (Composed (Stmt.Fits (Expr.Target f) (Expr.Written f.withoutLists)))
      (lower registry program) :=
  composed.lowerEach fun _ => yields_lowerStmt registry

end Lists

end AutomationScript
