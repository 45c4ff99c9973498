import AutomationScript.Lowering.Aliases
import AutomationScript.Lowering.Blocks
import AutomationScript.Lowering.Chains
import AutomationScript.Lowering.Conditions
import AutomationScript.Lowering.Families
import AutomationScript.Lowering.Types
import AutomationScript.Proofs.Lowering.Agreement

/-!
# Resolving two programs

Aliases, families, blocks, conditions, types and triggers are resolved and checked in the same way
in two programs that match.
-/

namespace AutomationScript

open List Slack

variable {slack : Slack} {defines : Stmt → Stmt → Prop} (registry : Registry)
variable {base base' : Ident} {key key' : Expr} {loc loc' : Option Location}
  {program program' : List Stmt}

/-! ## Aliases -/

namespace Alias

theorem agree_resolveSubscript {rigid : Bool} (bases : base.Matches slack base')
    (keys : key.Same slack key') (placed : slack.places loc loc') :
    slack.AgreeExpr Expr.Anything rigid false (resolveSubscript registry base key loc)
      (resolveSubscript registry base' key' loc') := by
  have whole : Expr.Fits slack Expr.Anything rigid false (.subscript base key loc)
      (.subscript base' key' loc') := .subscript bases keys.matches placed
  unfold resolveSubscript
  rw [bases.1]
  dsimp only
  split
  · exact ⟨whole, .inr rfl⟩
  · cases registry.category? base.name with
    | none => exact .refuse bases.2
    | some category =>
      dsimp only
      cases keys with
      | atom atoms =>
        cases atoms with
        | @ident name name' keyLoc keyLoc' words keyPlaced =>
          dsimp only
          rw [words.1]
          cases canonicalKey? registry base.name category name.name with
          | none => exact .refuse keyPlaced
          | some canonical =>
            dsimp only
            split
            · exact ⟨whole, .inr rfl⟩
            · have renamed : Expr.AtomsMatch slack (.ident ⟨canonical, name.loc⟩ keyLoc)
                  (.ident ⟨canonical, name'.loc⟩ keyLoc') := .ident ⟨rfl, words.2⟩ keyPlaced
              exact ⟨.subscript bases (.atom renamed) placed, .inr rfl⟩
        | _ => exact .refuse ‹_›
      | _ => exact .refuse ‹_›

theorem agree_resolve :
    slack.StepsAgree False Expr.Anything Expr.Anything (resolve registry) (resolve registry) where
  descends := descends_revise (fun _ _ _ => rfl) fun _ _ _ => rfl
  descends' := descends_revise (fun _ _ _ => rfl) fun _ _ _ => rfl
  written _ _ _ _ _ named := if_pos (.inl named)
  lowered _ _ := rfl
  grants _ _ := trivial
  subscript bases keys placed _ := agree_resolveSubscript registry bases keys.same placed
  atom {rigid e e'} _ atoms := by
    have kept : Expr.Fits slack Expr.Anything rigid false e e' := .atom atoms
    cases atoms with
    | @ident name name' loc loc' words placed =>
      rw [resolve, resolve, Expr.revise_atom _ rfl, Expr.revise_atom _ rfl]
      dsimp only
      rw [words.1]
      cases registry.other? name.name with
      | none => exact .refuse placed
      | some other =>
        have key : Expr.AtomsMatch slack (.ident ⟨other.target, name.loc⟩ loc)
            (.ident ⟨other.target, name'.loc⟩ loc') := .ident ⟨rfl, words.2⟩ placed
        exact ⟨.subscript ⟨rfl, words.2⟩ (.atom key) placed, .inr rfl⟩
    | _ => exact ⟨kept, .inr rfl⟩

theorem agree_lower
    (matched : Forall₂ (Stmt.Accords slack Expr.Anything defines) program program') :
    slack.Agree (Forall₂ (Stmt.Accords slack Expr.Anything defines)) (lower registry program)
      (lower registry program') :=
  agree_lowerEach matched fun first => agree_reviseStmt agree_unrevised (agree_resolve registry) first

end Alias

/-! ## Families -/

namespace Families

theorem agree_memberId (bases : base.Matches slack base') (keys : key.Same slack key') :
    slack.Agree (Ident.Matches slack) (memberId registry base key) (memberId registry base' key') := by
  unfold memberId
  rw [bases.1, keys.name?]
  cases registry.family? base.name with
  | none => exact .refuse bases.2
  | some family =>
    dsimp only
    cases key.name? with
    | none => exact .refuse keys.loc
    | some suffix =>
      dsimp only
      split
      · exact ⟨rfl, keys.loc⟩
      · exact .refuse keys.loc

theorem agree_resolveTarget {e e' : Expr} (same : e.Same slack e') :
    slack.AgreeSame (resolveTarget registry e) (resolveTarget registry e') := by
  have kept := same
  cases same with
  | atom atoms =>
    cases atoms with
    | @ident name name' _ _ words placed =>
      rw [resolveTarget, resolveTarget, words.1]
      split
      · exact ⟨kept, .inr rfl⟩
      · exact .refuse placed
    | _ => exact .refuse ‹_›
  | subscript bases keys placed =>
    refine (agree_memberId registry bases keys).bind fun id id' words _ _ => ?_
    exact ⟨.atom (.ident words placed), .inr rfl⟩
  | _ => exact .refuse ‹_›

theorem agree_resolveSubscript {rigid : Bool} (bases : base.Matches slack base')
    (keys : key.Same slack key') (placed : slack.places loc loc') :
    slack.AgreeExpr Expr.Anything rigid false (resolveSubscript registry base key loc)
      (resolveSubscript registry base' key' loc') := by
  have whole : Expr.Fits slack Expr.Anything rigid false (.subscript base key loc)
      (.subscript base' key' loc') := .subscript bases keys.matches placed
  have keysPlaced := keys.loc
  unfold resolveSubscript
  rw [bases.1, keys.name?]
  dsimp only
  split
  · refine (agree_memberId registry bases keys).bind fun id id' words _ _ => ?_
    exact ⟨.subscript ⟨rfl, bases.2⟩ (.atom (.ident words keysPlaced)) placed, .inr rfl⟩
  · split
    · cases keys with
      | atom atoms =>
        cases atoms with
        | ident words keyPlaced =>
          dsimp only
          rw [words.1]
          split
          · exact ⟨whole, .inr rfl⟩
          · exact .refuse keyPlaced
        | _ => exact .refuse keysPlaced
      | subscript innerBases innerKeys keyPlaced =>
        refine (agree_memberId registry innerBases innerKeys).bind fun id id' words _ _ => ?_
        exact ⟨.subscript bases (.atom (.ident words keyPlaced)) placed, .inr rfl⟩
      | _ => exact .refuse keysPlaced
    · split
      · exact ⟨whole, .inr rfl⟩
      · exact .refuse keysPlaced

theorem agree_resolve (noFamily : slack.lenient → registry.family? evalName = none) :
    slack.StepsAgree False Expr.Anything Expr.Anything (resolve registry) (resolve registry) where
  descends := descends_revise (fun _ _ _ => rfl) fun _ _ _ => rfl
  descends' := descends_revise (fun _ _ _ => rfl) fun _ _ _ => rfl
  written lenient base text textLoc loc named := by
    rw [resolve, Expr.revise]
    dsimp only
    rw [resolveSubscript, named, noFamily lenient]
    rfl
  lowered _ _ := rfl
  grants _ _ := trivial
  subscript bases keys placed _ := agree_resolveSubscript registry bases keys.same placed
  atom {rigid e e'} _ atoms := by
    have kept : Expr.Fits slack Expr.Anything rigid false e e' := .atom atoms
    cases atoms <;> exact ⟨kept, .inr rfl⟩

theorem agree_lower (noFamily : slack.lenient → registry.family? evalName = none)
    (matched : Forall₂ (Stmt.Accords slack Expr.Anything defines) program program') :
    slack.Agree (Forall₂ (Stmt.Accords slack Expr.Anything defines)) (lower registry program)
      (lower registry program') :=
  agree_lowerEach matched fun first =>
    agree_reviseStmt (agree_resolveTarget registry) (agree_resolve registry noFamily) first

end Families

/-! ## Blocks -/

namespace Blocks

theorem conjoin_fits {outer outer' inner inner' : Expr}
    (outers : outer.FitsRoot slack Expr.Anything outer')
    (inners : inner.FitsRoot slack Expr.Anything inner') :
    (conjoin outer inner).FitsRoot slack Expr.Anything (conjoin outer' inner') := by
  have operand {e e' : Expr} (fits : e.FitsRoot slack Expr.Anything e') :
      Expr.Fits slack Expr.Anything false true e e' := by
    rcases fits with fits | ⟨lenient, isText⟩
    · exact fits.asOperand
    · exact .swapped lenient ⟨trivial, isText⟩
  exact .inl (.ofCompound (.cons (operand outers) (.cons (operand inners) .nil))
    (slack.union outers.loc inners.loc))

variable {blocks blocks' : List Expr}

theorem underAll_fits (matched : Forall₂ (Expr.FitsRoot slack Expr.Anything) blocks blocks')
    {own own' : Option Expr} (owns : Option.Rel (Expr.FitsRoot slack Expr.Anything) own own') :
    Option.Rel (Expr.FitsRoot slack Expr.Anything) (underAll blocks own) (underAll blocks' own') := by
  refine rel_foldl (fun inner inner' inners block block' outers => ?_) owns matched
  cases inners with
  | none => exact .some outers
  | some inners => exact .some (conjoin_fits outers inners)

theorem agree_flatten
    (matched : Forall₂ (Stmt.Accords slack Expr.Anything defines) program program')
    (open_ : Forall₂ (Expr.FitsRoot slack Expr.Anything) blocks blocks') :
    slack.Agree (Forall₂ (Stmt.Matches slack (Expr.FitsRoot slack Expr.Anything)
        (Expr.FitsRoot slack Expr.Anything) (Expr.Same slack) defines))
      (flatten blocks program) (flatten blocks' program') := by
  induction matched generalizing blocks blocks' with
  | nil =>
    cases open_ with
    | nil => exact .nil
    | cons _ _ => exact .broken
  | cons first _ ih =>
    cases first with
    | openBlock outers _ => exact ih (.cons outers open_)
    | closeBlock _ =>
      cases open_ with
      | nil => exact .broken
      | cons _ outer => exact ih outer
    | assign targets values conditions tags =>
      refine (ih open_).bind fun rest rest' others _ _ => .cons ?_ others
      cases open_ with
      | nil => exact .assign targets values conditions tags
      | cons outers more =>
        exact .assign targets values (underAll_fits (.cons outers more) conditions) tags.rebuilt
    | trigger starts acts tags =>
      cases open_ with
      | nil =>
        refine (ih .nil).bind fun rest rest' others _ _ => .cons ?_ others
        exact .trigger starts acts tags
      | cons _ _ => exact .refuse tags.loc
    | use _ _ => exact .broken
    | defineExpr _ => exact .broken
    | defineBlock _ => exact .broken

end Blocks

/-! ## Conditions -/

namespace Conditions

variable {swap : Expr → Expr → Prop} {rigid operand : Bool} {e e' : Expr}

theorem checked_bind {α β : Type} (x : Except Defect α) (f : α → Except Defect β) :
    checked (x >>= f) = checked x >>= fun a => checked (f a) := by
  cases x <;> rfl

theorem agree_same {α : Type} (x : Except Defect α) :
    slack.Agree slack.Equal (checked x) (checked x) := by
  cases x with
  | ok a => exact .inr rfl
  | error defect => exact .broken

theorem agree_apply {α β : Type} {x x' : Except Defect α}
    (agree : slack.Agree slack.Equal (checked x) (checked x')) {f f' : α → β}
    (same : slack.Equal f f') :
    slack.Agree slack.Equal (checked (do return f (← x))) (checked (do return f' (← x'))) := by
  simp only [checked_bind]
  exact agree.bind fun a a' sameValue _ _ => same.map₂ sameValue fun f a => f a

theorem agree_join {α β γ : Type} {x x' : Except Defect α} {y y' : Except Defect β}
    (first : slack.Agree slack.Equal (checked x) (checked x'))
    (second : slack.Agree slack.Equal (checked y) (checked y')) {join join' : α → β → γ}
    (same : slack.Equal join join') :
    slack.Agree slack.Equal (checked (do return join (← x) (← y)))
      (checked (do return join' (← x') (← y'))) := by
  rw [checked_bind, checked_bind]
  exact first.bind fun a a' sameFirst _ _ =>
    agree_apply second (same.map₂ sameFirst fun join a => join a)

theorem agree_evalText
    (swaps : slack.lenient → ∀ {e e' : Expr}, swap e e' → ∀ wrap,
      slack.Agree slack.Equal (checked (e.evalText wrap)) (checked (e'.evalText wrap)))
    (matched : Expr.Matches slack swap rigid operand e e') (wrap : Bool) :
    slack.Agree slack.Equal (checked (e.evalText wrap)) (checked (e'.evalText wrap)) := by
  induction matched generalizing wrap with
  | swapped lenient swapped => exact swaps lenient swapped wrap
  | atom atoms =>
    cases atoms with
    | string _ _ => exact .inr rfl
    | number _ _ => exact .inr rfl
    | boolean _ _ => exact .inr rfl
    | eval texts _ => exact texts
    | _ => exact .broken
  | subscript bases keys _ _ =>
    cases keys with
    | atom atoms =>
      cases atoms with
      | ident words _ => exact .inr (by rw [bases.1, words.1])
      | _ => exact .broken
    | _ => exact .broken
  | list _ _ _ _ _ => exact .broken
  | compound operator length _ _ ih =>
    have each := forall₂_iff_zip.mpr ⟨length, fun part => ih part true⟩
    cases each with
    | nil => cases operator <;> exact .broken
    | cons first rest =>
      cases rest with
      | nil =>
        cases operator with
        | not =>
          rw [Expr.evalText, Expr.evalText]
          exact agree_apply first (.inr rfl)
        | _ => exact .broken
      | cons second rest =>
        cases rest with
        | cons _ _ => cases operator <;> exact .broken
        | nil =>
          cases operator with
          | not => exact .broken
          | _ => exact agree_join first second (.inr rfl)

theorem evalText_of_isText (isText : e.IsText) (wrap : Bool) :
    ∃ text, e.evalText wrap = .ok text := by
  induction isText generalizing wrap with
  | written _ => exact ⟨_, rfl⟩
  | lowered text _ => exact ⟨text, rfl⟩
  | negated _ _ ih =>
    obtain ⟨text, shown⟩ := ih true
    exact ⟨"!" ++ text, by rw [Expr.evalText, shown]; rfl⟩

def toText (e : Expr) : Lowering (Revised Expr) := do
  let text ← checked (e.evalText false)
  return .new (.eval text e.loc)

theorem agree_toText (fits : Expr.Fits slack Expr.Anything rigid operand e e') :
    slack.Agree (slack.Revisions (Expr.AtomsMatch slack)) (toText e) (toText e') := by
  have swaps (lenient : slack.lenient) {e e' : Expr} (swap : e.Anything ∧ e'.IsText)
      (wrap : Bool) :
      slack.Agree slack.Equal (checked (e.evalText wrap)) (checked (e'.evalText wrap)) := by
    obtain ⟨text, shown⟩ := evalText_of_isText swap.2 wrap
    exact .of_lenient lenient (congrArg checked shown) fun _ _ => .inl lenient
  refine (agree_evalText swaps fits false).bind fun text text' same _ _ => ?_
  exact ⟨.eval same fits.loc, .inr rfl⟩

theorem inlineEval?_same (bases : base.Matches slack base') (keys : key.Same slack key')
    (loc loc' : Option Location) :
    (Expr.subscript base' key' loc').inlineEval? = (Expr.subscript base key loc).inlineEval? := by
  cases keys with
  | atom atoms =>
    cases atoms with
    | ident words _ => simp only [Expr.inlineEval?, bases.1, words.1]
    | _ => rfl
  | _ => rfl

theorem agree_lowerValue (fits : e.FitsRoot slack Expr.Anything e') :
    slack.Agree (slack.Revisions (Expr.ValuesMatch slack)) (lowerValue e) (lowerValue e') := by
  rcases fits with fits | ⟨lenient, isText⟩
  · have text : slack.Agree (slack.Revisions (Expr.ValuesMatch slack)) (toText e) (toText e') :=
      (agree_toText fits).mono fun _ _ revised => ⟨.inl (.atom revised.1), revised.2⟩
    cases fits with
    | atom atoms =>
      have kept : e.ValuesMatch slack e' := .inl (.atom atoms)
      cases atoms with
      | ident _ _ => exact text
      | wildcard _ => exact text
      | placeholder _ => exact text
      | _ => exact ⟨kept, .inr rfl⟩
    | _ => exact text
  · have ran : ∃ found, lowerValue e' = .ok found ∧ ∃ text loc, found.value = .eval text loc := by
      obtain ⟨text, shown⟩ := evalText_of_isText isText false
      have asText : toText e' = .ok (.new (.eval text e'.loc)) := by
        rw [toText, shown]
        rfl
      cases isText with
      | lowered text loc => exact ⟨_, rfl, text, loc, rfl⟩
      | written _ => exact ⟨_, asText, _, _, rfl⟩
      | negated _ _ => exact ⟨_, asText, _, _, rfl⟩
    obtain ⟨found, ran, isEval⟩ := ran
    exact .of_lenient lenient ran fun _ _ => ⟨.inr ⟨lenient, isEval⟩, .inl lenient⟩

theorem lowerOperand_written (named : base.name = evalName) (text : Ident)
    (textLoc loc : Option Location) :
    lowerOperand (.subscript base (.ident text textLoc) loc) =
      .ok (.new (.eval text.name loc)) := by
  simp only [lowerOperand, Expr.inlineEval?, if_pos named]
  rfl

theorem lowerOperand_of_isText (isText : e.IsText) :
    ∃ found, lowerOperand e = .ok found ∧ ∃ text loc, found.value = .eval text loc := by
  obtain ⟨text, shown⟩ := evalText_of_isText isText false
  cases isText with
  | lowered text loc => exact ⟨_, rfl, text, loc, rfl⟩
  | written named => exact ⟨_, lowerOperand_written named _ _ _, _, _, rfl⟩
  | negated loc _ =>
    refine ⟨.new (.eval text loc), ?_, text, loc, rfl⟩
    rw [lowerOperand, shown]
    rfl

theorem agree_lowerSingle (bases : base.Matches slack base') (keys : key.Same slack key')
    (placed : slack.places loc loc') :
    slack.Agree (slack.Revisions (Expr.Matches slack Expr.Evaluates rigid operand))
      (lowerOperand (.subscript base key loc)) (lowerOperand (.subscript base' key' loc')) := by
  unfold lowerOperand
  dsimp only
  rw [inlineEval?_same bases keys loc loc']
  cases (Expr.subscript base key loc).inlineEval? with
  | none => exact ⟨.subscript bases keys.matches placed, .inr rfl⟩
  | some text => exact ⟨.atom (.eval (.inr rfl) placed), .inr rfl⟩

theorem agree_lowerOperand (fits : Expr.Fits slack Expr.Anything false operand e e') :
    slack.Agree (slack.Revisions (Expr.Matches slack Expr.Evaluates false true)) (lowerOperand e)
      (lowerOperand e') := by
  have text := agree_toText fits
  cases fits with
  | swapped lenient swaps =>
    obtain ⟨found, ran, isEval⟩ := lowerOperand_of_isText swaps.2
    exact .of_lenient lenient ran fun _ _ => ⟨.swapped lenient (.inr isEval), .inl lenient⟩
  | atom atoms =>
    have kept : Expr.Matches slack Expr.Evaluates false true e e' := .atom atoms
    cases atoms <;> exact ⟨kept, .inr rfl⟩
  | subscript bases keys placed => exact agree_lowerSingle bases keys.same placed
  | list fold length parts placed =>
    refine ⟨?_, .inr rfl⟩
    by_cases lenient : slack.lenient
    · exact .swapped lenient (.inl rfl)
    · refine .list fold length (fun part => (parts part).mono fun granted => ?_) placed
      exact absurd granted lenient
  | compound operator length parts placed =>
    exact text.mono fun _ _ revised => ⟨.atom revised.1, revised.2⟩

theorem agree_lowerCondition (fits : e.FitsRoot slack Expr.Anything e') :
    slack.Agree (slack.Revisions (Expr.ConditionsMatch slack)) (lowerCondition e)
      (lowerCondition e') := by
  rcases fits with fits | ⟨lenient, isText⟩
  · cases fits with
    | atom atoms =>
      have kept : e.ConditionsMatch slack e' := .inl (.atom atoms)
      cases atoms <;> exact ⟨kept, .inr rfl⟩
    | subscript bases keys placed =>
      have single : slack.Agree
          (slack.Revisions (Expr.Matches slack Expr.Evaluates false false)) _ _ :=
        agree_lowerSingle bases keys.same placed
      exact single.mono fun _ _ revised => ⟨.inl revised.1, revised.2⟩
    | list fold length parts placed =>
      refine ⟨?_, .inr rfl⟩
      by_cases lenient : slack.lenient
      · exact .inr ⟨lenient, .inl rfl⟩
      · refine .inl (.list fold length (fun part => (parts part).mono fun granted => ?_) placed)
        exact absurd granted lenient
    | compound operator length parts placed =>
      have each := forall₂_iff_zip.mpr ⟨length, fun part => agree_lowerOperand (parts part)⟩
      refine (agree_reviseList each).bind fun args args' revised _ _ => ?_
      exact revised.map fun parts => .inl (.ofCompound parts placed)
  · have ran : ∃ found, lowerCondition e' = .ok found ∧ found.value.IsClause := by
      cases isText with
      | lowered text loc => exact ⟨_, rfl, .eval text loc⟩
      | written named => exact ⟨_, lowerOperand_written named _ _ _, .eval _ _⟩
      | negated loc isText =>
        obtain ⟨⟨value, fresh⟩, ran, text, textLoc, rfl⟩ := lowerOperand_of_isText isText
        refine ⟨_, by rw [lowerCondition, reviseList, ran]; rfl, .negated text textLoc loc⟩
    obtain ⟨found, ran, isClause⟩ := ran
    exact .of_lenient lenient ran fun _ _ => ⟨.inr ⟨lenient, .inr isClause⟩, .inl lenient⟩

theorem agree_lower
    (matched : Forall₂ (Stmt.Matches slack (Expr.FitsRoot slack Expr.Anything)
      (Expr.FitsRoot slack Expr.Anything) (Expr.Same slack) defines) program program') :
    slack.Agree (Forall₂ (Stmt.MatchesLowered slack defines)) (lower program) (lower program') := by
  refine agree_lowerEach matched fun {s s'} first => ?_
  cases first with
  | assign targets values conditions tags =>
    refine (agree_lowerValue values).bind fun value value' values _ _ => ?_
    refine (agree_reviseOption conditions agree_lowerCondition).bind
      fun own own' conditions _ _ => ?_
    exact .cons (matches_ofParts ⟨targets, .inr rfl⟩ values conditions tags) .nil
  | openBlock blocks tags => exact .cons (.openBlock blocks tags) .nil
  | closeBlock tags => exact .cons (.closeBlock tags) .nil
  | trigger starts acts tags => exact .cons (.trigger starts acts tags) .nil
  | use names tags => exact .cons (.use names tags) .nil
  | defineExpr related => exact .cons (.defineExpr related) .nil
  | defineBlock related => exact .cons (.defineBlock related) .nil

end Conditions

/-! ## Types -/

namespace Types

/-- The types are the same, or the type of text is unknown. -/
def TypesMatch (slack : Slack) (type type' : Ty) : Prop :=
  type' = type ∨ slack.lenient ∧ type' = .unknown

theorem agree_expect (placed : slack.places loc loc') {type type' : Ty}
    (types : TypesMatch slack type type') (expected : Ty) :
    slack.Agree (fun _ _ => True) (expect loc type expected) (expect loc' type' expected) := by
  rcases types with rfl | ⟨lenient, rfl⟩
  · unfold expect
    split
    · exact trivial
    · exact .refuse placed
  · have fits : expect loc' .unknown expected = .ok () := rfl
    exact .of_lenient lenient fits fun _ _ => trivial

abbrev TypedMatch (slack : Slack) : List (Expr × Ty) → List (Expr × Ty) → Prop :=
  Forall₂ fun typed typed' =>
    slack.places typed.1.loc typed'.1.loc ∧ TypesMatch slack typed.2 typed'.2

variable {typed typed' : List (Expr × Ty)}

theorem agree_expectAll (expected : Ty) (matched : TypedMatch slack typed typed') :
    slack.Agree (fun _ _ => True) (expectAll expected typed) (expectAll expected typed') := by
  induction matched with
  | nil => exact trivial
  | cons first _ ih => exact (agree_expect first.1 first.2 expected).bind fun _ _ _ _ _ => ih

/-- A comparison of equals asks of its second operand what the first one is, if that is known. -/
theorem agree_equality (matched : TypedMatch slack typed typed') :
    slack.Agree (TypesMatch slack) (operatorType .eq typed) (operatorType .eq typed') := by
  cases matched with
  | nil => exact .inl rfl
  | @cons left left' _ _ lefts rest =>
    cases rest with
    | nil => exact .inl rfl
    | cons rights rest =>
      cases rest with
      | cons _ _ => exact .inl rfl
      | nil =>
        simp only [operatorType]
        rcases lefts.2 with same | ⟨lenient, unknown⟩
        · rw [same]
          split
          · refine (agree_expect rights.1 rights.2 left.2).bind fun _ _ _ _ _ => ?_
            exact .inl rfl
          · exact .inl rfl
        · rw [if_neg (not_not_intro unknown)]
          refine .of_lenient lenient rfl fun type ran => .inl ?_
          split at ran
          · obtain ⟨_, _, same⟩ := bind_pure_eq_ok_iff.mp ran
            exact same
          · exact Except.ok.inj ran

theorem agree_operatorType (operator : Operator) (matched : TypedMatch slack typed typed') :
    slack.Agree (TypesMatch slack) (operatorType operator typed) (operatorType operator typed') := by
  cases operator with
  | eq => exact agree_equality matched
  | ne => exact agree_equality matched
  | _ => exact (agree_expectAll _ matched).bind fun _ _ _ _ _ => .inl rfl

theorem agree_subscriptType (bases : base.Matches slack base') (keys : key.Same slack key') :
    slack.Agree (TypesMatch slack) (subscriptType registry base key)
      (subscriptType registry base' key') := by
  unfold subscriptType
  rw [bases.1, keys.name?]
  split
  · exact .inl rfl
  · cases key.name? with
    | none => exact .refuse keys.loc
    | some name =>
      dsimp only
      split
      · cases registry.settingType? name with
        | none => exact .refuse keys.loc
        | some type => exact .inl rfl
      · cases registry.category? base.name with
        | none => exact .refuse bases.2
        | some category =>
          dsimp only
          split
          · cases (registry.otherTarget? name).or (registry.other? name) with
            | none => exact .refuse keys.loc
            | some other => exact .inl rfl
          · split
            · exact .inl rfl
            · exact .refuse keys.loc

theorem agree_typeOfAll {args args' : List Expr}
    (each : Forall₂ (fun arg arg' => slack.places arg.loc arg'.loc ∧
      slack.Agree (TypesMatch slack) (typeOf registry arg) (typeOf registry arg')) args args') :
    slack.Agree (TypedMatch slack) (typeOfAll registry args) (typeOfAll registry args') := by
  induction each with
  | nil => exact .nil
  | cons first _ ih =>
    refine first.2.bind fun type type' types _ _ => ih.bind fun rest rest' others _ _ => ?_
    exact .cons ⟨first.1, types⟩ others

variable {e e' : Expr}

theorem agree_typeOf {rigid operand : Bool}
    (matched : Expr.Matches slack Expr.Evaluates rigid operand e e') :
    slack.Agree (TypesMatch slack) (typeOf registry e) (typeOf registry e') := by
  induction matched with
  | @swapped e e' lenient swaps =>
    rcases swaps with isList | ⟨text, loc, rfl⟩
    · cases e with
      | list values fold loc => exact .of_stopped lenient rfl
      | _ => cases isList
    · exact .of_lenient lenient rfl fun _ _ => .inr ⟨lenient, rfl⟩
  | atom atoms =>
    cases atoms with
    | ident _ _ => exact .broken
    | wildcard _ => exact .broken
    | placeholder _ => exact .broken
    | _ => exact .inl rfl
  | subscript bases keys placed _ => exact agree_subscriptType registry bases keys.same
  | list _ _ _ _ _ => exact .broken
  | compound operator length parts placed ih =>
    have each := forall₂_iff_zip.mpr ⟨length, fun part => And.intro (parts part).loc (ih part)⟩
    refine (agree_typeOfAll registry each).bind fun typed typed' matched _ _ => ?_
    exact agree_operatorType operator matched

theorem agree_typeOfValue (matched : e.ValuesMatch slack e') :
    slack.Agree (TypesMatch slack) (typeOf registry e) (typeOf registry e') := by
  rcases matched with matched | ⟨lenient, text, loc, rfl⟩
  · exact agree_typeOf registry matched
  · exact .of_lenient lenient rfl fun _ _ => .inr ⟨lenient, rfl⟩

theorem agree_checkCondition (matched : e.ConditionsMatch slack e') :
    slack.Agree (fun _ _ => True) (checkCondition registry e) (checkCondition registry e') := by
  rcases matched with matched | ⟨lenient, isList | isClause⟩
  · exact (agree_typeOf registry matched).bind fun type type' types _ _ =>
      agree_expect matched.loc types _
  · cases e with
    | list values fold loc => exact .of_stopped lenient rfl
    | _ => cases isList
  · have ran : checkCondition registry e' = .ok () := by
      cases isClause <;> rfl
    exact .of_lenient lenient ran fun _ _ => trivial

theorem agree_checkStmt {s s' : Stmt} (matched : s.MatchesLowered slack defines s') :
    slack.Agree (fun _ _ => True) (checkStmt registry s) (checkStmt registry s') := by
  cases matched with
  | assign targets values conditions tags =>
    unfold checkStmt
    dsimp only
    rw [targets.name?]
    split
    · exact .broken
    · split
      · exact .refuse targets.loc
      · refine (agree_typeOfValue registry values).bind fun type type' types _ _ => ?_
        refine (agree_expect values.loc types _).bind fun _ _ _ _ _ => ?_
        cases conditions with
        | none => exact trivial
        | some conditions => exact agree_checkCondition registry conditions
  | openBlock blocks tags =>
    exact (agree_typeOf registry blocks.matches).bind fun type type' types _ _ =>
      agree_expect blocks.loc types _
  | closeBlock _ => exact trivial
  | trigger _ _ _ => exact trivial
  | use _ _ => exact .broken
  | defineExpr _ => exact .broken
  | defineBlock _ => exact .broken

theorem agree_lower (matched : Forall₂ (Stmt.MatchesLowered slack defines) program program') :
    slack.Agree (Forall₂ (Stmt.MatchesLowered slack defines)) (lower registry program)
      (lower registry program') := by
  suffices checks : slack.Agree (fun _ _ => True) (checkAll registry program)
      (checkAll registry program') from checks.bind fun _ _ _ _ _ => matched
  induction matched with
  | nil => exact trivial
  | cons first _ ih => exact (agree_checkStmt registry first).bind fun _ _ _ _ _ => ih

end Types

/-! ## Chains of triggers -/

namespace Chains

variable {arg arg' : TriggerArg}

theorem agree_normalizeCount (args : arg.Matches slack arg') :
    slack.Agree (Expr.Same slack) (normalizeCount arg) (normalizeCount arg') := by
  have counts := args.count
  unfold normalizeCount
  generalize arg.count = count at counts
  generalize arg'.count = count' at counts
  cases counts with
  | none => exact .atom (.number _ args.loc)
  | some same =>
    cases same with
    | atom atoms =>
      cases atoms with
      | number value placed =>
        dsimp only
        cases value.toInt? with
        | none => exact .refuse placed
        | some n =>
          dsimp only
          split
          · exact .atom (.number value placed)
          · exact .refuse placed
      | _ => exact .broken
    | _ => exact .broken

theorem agree_normalize (vocabulary : Vocabulary) (args : arg.Matches slack arg') :
    slack.Agree (slack.Revisions (TriggerArg.Matches slack)) (normalize vocabulary arg)
      (normalize vocabulary arg') := by
  have present : arg'.count.isSome = arg.count.isSome := by
    have counts := args.count
    generalize arg.count = count at counts
    generalize arg'.count = count' at counts
    cases counts <;> rfl
  unfold normalize
  rw [args.id.1, args.kind.1, present]
  cases vocabulary.canonicalId arg.id.name with
  | none => exact .refuse args.id.2
  | some id =>
    refine (agree_normalizeCount args).bind fun count count' counts _ _ => ?_
    dsimp only
    split
    · exact ⟨args, .inr rfl⟩
    · exact ⟨⟨⟨rfl, args.kind.2⟩, ⟨rfl, args.id.2⟩, .some counts, args.loc⟩, .inr rfl⟩

theorem isChain_matches (args : arg.Matches slack arg') : isChain arg' = isChain arg := by
  have counts := args.count
  unfold isChain
  rw [args.id.1, args.kind.1]
  generalize arg.count = count at counts
  generalize arg'.count = count' at counts
  cases counts with
  | none => rfl
  | some same =>
    cases same with
    | atom atoms => cases atoms <;> rfl
    | _ => rfl

theorem agree_normalizeCondition (args : arg.Matches slack arg') :
    slack.Agree (slack.Revisions (TriggerArg.Matches slack)) (normalizeCondition registry arg)
      (normalizeCondition registry arg') := by
  unfold normalizeCondition
  rw [isChain_matches args, args.kind.1]
  split
  · exact ⟨args, .inr rfl⟩
  · cases registry.condition? arg.kind.name with
    | none => exact .refuse args.kind.2
    | some vocabulary => exact agree_normalize vocabulary args

theorem agree_normalizeAction (args : arg.Matches slack arg') :
    slack.Agree (slack.Revisions (TriggerArg.Matches slack)) (normalizeAction registry arg)
      (normalizeAction registry arg') := by
  unfold normalizeAction
  rw [args.kind.1]
  cases registry.action? arg.kind.name with
  | none => exact .refuse args.kind.2
  | some vocabulary => exact agree_normalize vocabulary args

variable {value condition block : Expr → Expr → Prop}

theorem agree_later {tag tag' : Tag} (tags : tag.Matches slack tag')
    {actions actions' : List TriggerArg}
    (acts : Forall₂ (TriggerArg.Matches slack) actions actions') :
    slack.Agree (Forall₂ (Stmt.Matches slack value condition block defines))
      (later registry tag actions) (later registry tag' actions') := by
  induction acts with
  | nil => exact .nil
  | cons args _ ih =>
    refine (agree_normalizeAction registry args).bind fun action action' revised _ _ => ?_
    refine ih.bind fun rest rest' others _ _ => .cons (.trigger ?_ ?_ tags.rebuilt) others
    · exact ⟨⟨rfl, args.kind.2⟩, ⟨rfl, args.id.2⟩, .some (.atom (.number _ args.loc)), args.loc⟩
    · exact .cons revised.1 .nil

theorem agree_lower
    (matched : Forall₂ (Stmt.Matches slack value condition block defines) program program') :
    slack.Agree (Forall₂ (Stmt.Matches slack value condition block defines))
      (lower registry program) (lower registry program') := by
  refine agree_lowerEach matched fun {s s'} first => ?_
  have handedOn : Forall₂ (Stmt.Matches slack value condition block defines) [s] [s'] :=
    .cons first .nil
  cases first with
  | trigger starts acts tags =>
    refine (agree_normalizeCondition registry starts).bind fun start start' starts _ _ => ?_
    cases acts with
    | nil => exact .nil
    | @cons _ _ rest rest' args more =>
      refine (agree_normalizeAction registry args).bind fun action action' acts _ _ => ?_
      have laters : slack.Agree (Forall₂ (Stmt.Matches slack value condition block defines))
          _ _ := agree_later registry tags more
      refine laters.bind fun others others' chained _ _ => ?_
      refine .cons (.trigger starts.1 (.cons acts.1 .nil) ?_) chained
      have sameEnd : rest'.isEmpty = rest.isEmpty := by
        cases more <;> rfl
      rcases starts.2, acts.2 with ⟨lenient | sameStart, lenient' | sameAction⟩
      · exact .of_lenient lenient
      · exact .of_lenient lenient
      · exact .of_lenient lenient'
      · rw [sameEnd, sameStart, sameAction]
        split
        · exact tags
        · exact tags.rebuilt
  | _ => exact handedOn

end Chains

end AutomationScript
