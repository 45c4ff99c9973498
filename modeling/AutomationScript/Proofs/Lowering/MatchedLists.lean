import AutomationScript.Proofs.Lowering.MatchedExpansions

/-!
# Resolving the lists of two programs

Lists in two programs that match are resolved in the same way, if no operand for which text stands
would become a list.
-/

namespace AutomationScript

open List Slack

namespace Lists

variable {slack : Slack} {swap : Expr → Expr → Prop} (registry : Registry)
variable {e e' : Expr} {keys keys' values : List Expr} {loc loc' : Option Location} {operand : Bool}

/-! ## The type under a base -/

theorem settingElementType?_same (same : e.Same slack e') :
    settingElementType? registry e' = settingElementType? registry e := by
  cases same with
  | atom atoms =>
    cases atoms with
    | ident words _ => exact congrArg registry.settingType? words.1
    | _ => rfl
  | subscript bases _ _ => exact congrArg (fun name => (registry.family? name).map _) bases.1
  | _ => rfl

theorem agree_sharedSettingType (shared : Option ValueType)
    (same : Forall₂ (Expr.Same slack) keys keys') :
    slack.Agree Eq (sharedSettingType registry shared keys)
      (sharedSettingType registry shared keys') := by
  induction same generalizing shared with
  | nil => exact rfl
  | cons first _ ih =>
    rw [sharedSettingType, sharedSettingType, settingElementType?_same registry first]
    cases settingElementType? registry _ with
    | none => exact .refuse first.loc
    | some type =>
      dsimp only
      split
      · exact .refuse first.loc
      · exact ih (some type)

theorem agree_sharedOtherType (shared : Option ValueType)
    (same : Forall₂ (Expr.Same slack) keys keys') :
    slack.Agree Eq (sharedOtherType registry shared keys)
      (sharedOtherType registry shared keys') := by
  induction same generalizing shared with
  | nil => exact rfl
  | @cons e e' _ _ first _ ih =>
    have sameType : otherElementType? registry e' = otherElementType? registry e := by
      rw [otherElementType?, otherElementType?, first.name?]
    rw [sharedOtherType, sharedOtherType, sameType]
    cases otherElementType? registry e with
    | none => exact ih shared
    | some type =>
      dsimp only
      split
      · exact .refuse first.loc
      · exact ih (some type)

theorem agree_baseType (base : String) (same : Forall₂ (Expr.Same slack) keys keys') :
    slack.Agree Eq (baseType registry base keys) (baseType registry base keys') := by
  unfold baseType
  cases (registry.category? base).bind Category.type with
  | some type => exact rfl
  | none =>
    cases registry.family? base with
    | some family => exact rfl
    | none =>
      dsimp only
      split
      · exact agree_sharedSettingType registry none same
      · split
        · exact agree_sharedOtherType registry none same
        · exact rfl

/-! ## Folding -/

variable {rigid : Bool}

theorem agree_foldValues (fold : Option Fold) (placed : slack.places loc loc')
    {values' : List Expr} (matched : Forall₂ (Expr.Matches slack swap rigid false) values values') :
    slack.Agree (Expr.Matches slack swap rigid false) (foldValues fold loc values)
      (foldValues fold loc' values') := by
  unfold foldValues
  cases fold with
  | none => exact .refuse placed
  | some fold =>
    cases matched with
    | nil => exact .refuse placed
    | cons first rest =>
      refine rel_foldl (fun all all' alls next next' nexts => ?_) first rest
      exact .ofCompound (.cons alls.asOperand (.cons nexts.asOperand .nil)) placed

theorem agree_expandSubscript {base base' : Ident} (bases : base.Matches slack base')
    (same : Forall₂ (Expr.Same slack) keys keys') (fold : Option Fold)
    {listLoc listLoc' : Option Location} (listPlaced : slack.places listLoc listLoc')
    (placed : slack.places loc loc') :
    slack.Agree (Expr.Matches slack swap rigid false)
      (expandSubscript registry base keys fold listLoc loc)
      (expandSubscript registry base' keys' fold listLoc' loc') := by
  have subscripts : Forall₂ (Expr.Matches slack swap rigid false)
      (keys.map fun key => Expr.subscript base key key.loc)
      (keys'.map fun key => Expr.subscript base' key key.loc) := by
    refine forall₂_map_left_iff.mpr (forall₂_map_right_iff.mpr (same.imp ?_))
    exact fun key key' keys => .subscript bases keys.matches keys.loc
  rw [expandSubscript, expandSubscript, bases.1]
  refine (agree_baseType registry base.name same).bind fun type _ sameType _ _ => ?_
  subst sameType
  dsimp only
  split
  · exact agree_foldValues fold listPlaced subscripts
  · exact .ofList subscripts placed

/-! ## Operators -/

/-- A resolved operand and its match, which is a list if the operand is one. -/
def Corresponds (slack : Slack) (rigid operand : Bool) (e e' : Expr) : Prop :=
  Expr.Fits slack Expr.Anything rigid operand e e' ∧ e'.isList = e.isList

theorem Corresponds.of_matches (matched : Expr.Fits slack Expr.Anything rigid false e e') :
    Corresponds slack rigid operand e e' :=
  ⟨matched.asOperand, matched.isList⟩

theorem isList_of_isText (isText : e.IsText) : e.isList = false := by
  cases isText <;> rfl

theorem Corresponds.list {fold : Option Fold}
    (resolved : Corresponds slack rigid operand (.list values fold loc) e') :
    ∃ values' loc', e' = .list values' fold loc' ∧ slack.places loc loc' ∧
      Forall₂ (Expr.Fits slack Expr.Anything rigid false)
        values values' := by
  obtain ⟨matched, isList⟩ := resolved
  cases matched with
  | swapped _ swaps =>
    rw [isList_of_isText swaps.2] at isList
    cases isList
  | atom atoms => cases atoms
  | list _ length parts placed =>
    exact ⟨_, _, rfl, placed, forall₂_iff_zip.mpr ⟨length, parts⟩⟩

theorem agree_distribute (operator : Operator) {before before' after after' : List Expr}
    (befores : Forall₂ (Corresponds slack rigid !rigid) before before')
    (afters : Forall₂ (Corresponds slack rigid !rigid) after after') {list list' : Expr}
    (lists : Corresponds slack rigid (!rigid) list list') (isList : list.isList = true)
    (placed : slack.places loc loc') :
    slack.Agree (Expr.Fits slack Expr.Anything rigid false)
      (distribute operator before list after loc) (distribute operator before' list' after' loc') := by
  cases list with
  | list elements fold listLoc =>
    obtain ⟨elements', listLoc', rfl, listPlaced, each⟩ := lists.list
    have results : Forall₂
        (Expr.Fits slack Expr.Anything rigid false)
        (elements.map fun element =>
          Expr.compound operator (before ++ element :: after) element.loc)
        (elements'.map fun element =>
          Expr.compound operator (before' ++ element :: after') element.loc) := by
      refine forall₂_map_left_iff.mpr (forall₂_map_right_iff.mpr (each.imp ?_))
      intro element element' elements
      have operands := rel_append (befores.imp fun _ _ resolved => resolved.1)
        (.cons elements.asOperand (afters.imp fun _ _ resolved => resolved.1))
      exact .ofCompound operands elements.loc
    unfold distribute
    dsimp only
    split
    · exact agree_foldValues fold listPlaced results
    · exact .ofList results placed
  | _ => cases isList

theorem splitAtList_resolved {args args' : List Expr}
    (matched : Forall₂ (Corresponds slack rigid !rigid) args args') :
    splitAtList args = none ∧ splitAtList args' = none ∨
      ∃ before list after before' list' after',
        splitAtList args = some (before, list, after) ∧
        splitAtList args' = some (before', list', after') ∧ list.isList = true ∧
        Forall₂ (Corresponds slack rigid !rigid) before before' ∧
        Corresponds slack rigid (!rigid) list list' ∧
        Forall₂ (Corresponds slack rigid !rigid) after after' := by
  induction matched with
  | nil => exact .inl ⟨rfl, rfl⟩
  | @cons e e' rest rest' first others ih =>
    rw [splitAtList, splitAtList, first.2]
    by_cases isList : e.isList = true
    · rw [if_pos isList, if_pos isList]
      exact .inr ⟨_, _, _, _, _, _, rfl, rfl, isList, .nil, first, others⟩
    · rw [if_neg isList, if_neg isList]
      rcases ih with ⟨none, none'⟩ |
        ⟨before, list, after, before', list', after', split, split', found, befores, lists, afters⟩
      · exact .inl (by rw [none, none']; exact ⟨rfl, rfl⟩)
      · rw [split, split']
        exact .inr ⟨_, _, _, _, _, _, rfl, rfl, found, .cons first befores, lists, afters⟩

theorem find?_isList_resolved {values' : List Expr}
    (matched : Forall₂ (Corresponds slack rigid operand) values values') :
    Option.Rel (fun e e' => slack.places e.loc e'.loc) (values.find? Expr.isList)
      (values'.find? Expr.isList) := by
  induction matched with
  | nil => exact .none
  | @cons e e' _ _ first _ ih =>
    rw [find?_cons, find?_cons, first.2]
    cases e.isList with
    | true => exact .some first.1.loc
    | false => exact ih

theorem agree_applyOperator (operator : Operator) {args args' : Revised (List Expr)}
    (revised : slack.Revisions (Forall₂ (Corresponds slack rigid !rigid)) args args')
    (placed : slack.places loc loc') :
    slack.AgreeExpr Expr.Anything rigid false (applyOperator operator args loc)
      (applyOperator operator args' loc') := by
  unfold applyOperator
  rcases splitAtList_resolved revised.1 with ⟨none, none'⟩ |
    ⟨before, list, after, before', list', after', split, split', isList, befores, lists, afters⟩
  · rw [none, none']
    refine revised.map fun parts => .ofCompound (parts.imp fun _ _ resolved => resolved.1) placed
  · rw [split, split']
    have second := find?_isList_resolved afters
    dsimp only
    generalize after.find? Expr.isList = found at second
    generalize after'.find? Expr.isList = found' at second
    cases second with
    | some places => exact .refuse places
    | none =>
      refine (agree_distribute operator befores afters lists isList placed).bind
        fun _ _ matched _ _ => ?_
      exact ⟨matched, .inr rfl⟩

/-! ## Expressions -/

def Single (e : Expr) : Prop :=
  ∀ found, resolve registry e = .ok found → found.value.isList = false

theorem resolve_text (isText : e.IsText) : resolve registry e = .ok (.kept e) := by
  induction isText with
  | written _ => rfl
  | lowered _ _ => rfl
  | @negated e loc isText ih =>
    rw [resolve, resolveAll, ih]
    change applyOperator .not (.kept [e]) loc = _
    rw [applyOperator, Revised.kept, splitAtList, if_neg (by rw [isList_of_isText isText]; simp)]
    rfl

theorem agree_resolve (matched : Expr.Fits slack (Single registry) rigid operand e e') :
    slack.Agree (slack.Revisions (Corresponds slack rigid operand)) (resolve registry e)
      (resolve registry e') := by
  have lift {rigid operand : Bool} {x x' : Lowering (Revised Expr)}
      (agree : slack.AgreeExpr Expr.Anything rigid false x x') :
      slack.Agree (slack.Revisions (Corresponds slack rigid operand)) x x' :=
    agree.mono fun _ _ revised => ⟨.of_matches revised.1, revised.2⟩
  induction matched with
  | swapped lenient swaps =>
    refine .of_lenient lenient (resolve_text registry swaps.2) fun found ran => ?_
    refine ⟨⟨.swapped lenient ⟨trivial, swaps.2⟩, ?_⟩, .inl lenient⟩
    exact (isList_of_isText swaps.2).trans (swaps.1 found ran).symm
  | @subscript rigid _ base base' _ _ loc loc' bases _ placed ih =>
    refine lift (ih.bind fun key key' revised _ _ => ?_)
    obtain ⟨key, fresh⟩ := key
    obtain ⟨key', fresh'⟩ := key'
    obtain ⟨⟨matched, _⟩, same⟩ := revised
    have whole : Expr.Fits slack Expr.Anything rigid false (.subscript base key loc)
        (.subscript base' key' loc') := .subscript bases matched placed
    cases matched with
    | list fold length parts listPlaced =>
      have keys := forall₂_iff_zip.mpr ⟨length, fun part => (parts part).same⟩
      refine (agree_expandSubscript registry bases keys fold listPlaced placed).bind
        fun _ _ matched _ _ => ⟨matched, .inr rfl⟩
    | atom atoms => cases atoms <;> exact ⟨whole, same⟩
    | _ => exact ⟨whole, same⟩
  | list fold length parts placed ih =>
    rw [resolve, resolve, resolveAll_eq_reviseList, resolveAll_eq_reviseList]
    have each := forall₂_iff_zip.mpr ⟨length, fun part => ih part⟩
    refine lift ((agree_reviseList each).bind fun values values' revised _ _ => ?_)
    have nested := find?_isList_resolved revised.1
    generalize values.value.find? Expr.isList = found at nested
    generalize values'.value.find? Expr.isList = found' at nested
    cases nested with
    | some places => exact .refuse places
    | none =>
      exact revised.map fun parts => .ofList (parts.imp fun _ _ resolved => resolved.1) placed
  | compound operator length parts placed ih =>
    rw [resolve, resolve, resolveAll_eq_reviseList, resolveAll_eq_reviseList]
    have each := forall₂_iff_zip.mpr ⟨length, fun part => ih part⟩
    refine lift ((agree_reviseList each).bind fun args args' revised _ _ => ?_)
    exact agree_applyOperator operator revised placed
  | @atom rigid _ e e' atoms =>
    have kept : Expr.Fits slack Expr.Anything rigid false e e' := .atom atoms
    cases atoms <;> exact lift ⟨kept, .inr rfl⟩

theorem agree_resolveRoot (matched : Expr.FitsRoot slack (Single registry) e e') :
    slack.Agree (slack.Revisions (Expr.FitsRoot slack Expr.Anything))
      (resolveRoot registry e) (resolveRoot registry e') := by
  unfold resolveRoot
  rcases matched with matched | ⟨lenient, isText⟩
  · refine (agree_resolve registry matched).bind fun found found' revised _ _ => ?_
    rw [revised.1.2]
    split
    · exact .refuse revised.1.1.loc
    · exact ⟨.inl revised.1.1, revised.2⟩
  · have ran : (do
        let resolved ← resolve registry e'
        if resolved.value.isList then
          refuse .listOutsideKey resolved.value.loc
        else
          return resolved) = .ok (.kept e') := by
      rw [resolve_text registry isText]
      exact if_neg (by rw [Revised.kept, isList_of_isText isText]; exact Bool.false_ne_true)
    exact .of_lenient lenient ran fun _ _ => ⟨.inr ⟨lenient, isText⟩, .inl lenient⟩

/-! ## Statements -/

theorem agree_unrollKeys {base base' : Ident} (bases : base.Matches slack base')
    (same : Forall₂ (Expr.Same slack) keys keys') :
    slack.Agree (Forall₂ (slack.Revisions (Expr.Same slack))) (unrollKeys base keys)
      (unrollKeys base' keys') := by
  induction same with
  | nil => exact .nil
  | cons first _ ih =>
    rw [unrollKeys, unrollKeys, first.isList]
    split
    · exact .refuse first.loc
    · refine ih.bind fun others others' more _ _ => .cons ⟨?_, .inr rfl⟩ more
      exact .subscript bases first first.loc

theorem agree_unroll {target target' : Expr} (same : target.Same slack target') :
    slack.Agree (Forall₂ (slack.Revisions (Expr.Same slack))) (unroll target) (unroll target') := by
  have kept : Forall₂ (slack.Revisions (Expr.Same slack)) [.kept target] [.kept target'] :=
    .cons ⟨same, .inr rfl⟩ .nil
  cases same with
  | subscript bases keys placed =>
    cases keys with
    | list fold length parts _ =>
      exact agree_unrollKeys bases (forall₂_iff_zip.mpr ⟨length, parts⟩)
    | atom atoms => cases atoms <;> exact kept
    | _ => exact kept
  | atom atoms => cases atoms <;> exact kept
  | _ => exact kept

theorem agree_lower {defines : Stmt → Stmt → Prop} {program program' : List Stmt}
    (matched : Forall₂ (Stmt.Accords slack (Single registry) defines) program program') :
    slack.Agree (Forall₂ (Stmt.Accords slack Expr.Anything defines))
      (lower registry program) (lower registry program') := by
  refine agree_lowerEach matched fun {s s'} first => ?_
  cases first with
  | assign targets values conditions tags =>
    refine (agree_resolveRoot registry values).bind fun value value' values _ _ => ?_
    refine (agree_reviseOption conditions (agree_resolveRoot registry)).bind
      fun own own' conditions _ _ => ?_
    refine (agree_unroll targets).bind fun all all' targets _ _ => ?_
    refine forall₂_map_left_iff.mpr (forall₂_map_right_iff.mpr (targets.imp ?_))
    exact fun target target' targets => matches_ofParts targets values conditions tags
  | openBlock blocks tags =>
    refine (agree_resolveRoot registry blocks).bind fun outer outer' blocks _ _ => ?_
    exact .cons (matches_ofCondition blocks tags) .nil
  | closeBlock tags => exact .cons (.closeBlock tags) .nil
  | trigger starts acts tags => exact .cons (.trigger starts acts tags) .nil
  | use names tags => exact .cons (.use names tags) .nil
  | defineExpr related => exact .cons (.defineExpr related) .nil
  | defineBlock related => exact .cons (.defineBlock related) .nil

end Lists

end AutomationScript
