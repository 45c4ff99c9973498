import AutomationScript.Pipeline.Stage
import AutomationScript.Proofs.Lowering.Mentions

/-!
# Entering definitions

Expanding looks names up.  What is found is left alone, refused, or entered, and the rules here
leave open what entering a definition gives.
-/

namespace AutomationScript

open List

namespace Definition

variable {definitions : Table Definition} {active : List String} {fuel : Nat}
variable {word : Ident} {loc : Option Location} {e : Expr}

/-! ## Expressions -/

/-- What becomes of one node of an expression, if `enter` says what becomes of a name that is defined
and not yet active. -/
def nameRule (definitions : Table Definition) (active : List String)
    (enter : Ident → Expr → Lowering (Revised Expr)) : Expr → Option (Lowering (Revised Expr))
  | .ident word loc =>
    match definitions.get? word.name with
    | none => none
    | some (.block _) => some (refuse (.usedAsExpression word.name) loc)
    | some (.expr body) =>
      if active.contains word.name then
        some (refuse (.circularUse word.name) word.loc)
      else
        some (enter word body)
  | .subscript base key loc => some (pure (.kept (.subscript base key loc)))
  | _ => none

/-- What entering a definition gives as long as there is fuel. -/
def enterExpr (definitions : Table Definition) (active : List String) :
    (fuel : Nat) → Ident → Expr → Lowering (Revised Expr)
  | 0, word, _ => refuse (.circularUse word.name) word.loc
  | fuel + 1, word, body => do
    let expanded ← expandExpr definitions fuel (word.name :: active) body
    return .new expanded.value

theorem expandExpr_eq (definitions : Table Definition) (fuel : Nat) (active : List String)
    (e : Expr) :
    expandExpr definitions fuel active e =
      e.revise (nameRule definitions active (enterExpr definitions active fuel)) := by
  rw [expandExpr]
  congr 1
  funext node
  cases node with
  | ident word loc => cases fuel <;> rfl
  | _ => rfl

section Names

variable {enter enter' : Ident → Expr → Lowering (Revised Expr)}

/-- What is found under a name in an expression. -/
inductive Named (definitions : Table Definition) (active : List String)
    (enter : Ident → Expr → Lowering (Revised Expr)) (word : Ident) (loc : Option Location) :
    Option (Lowering (Revised Expr)) → Prop
  | undefined :
      definitions.get? word.name = none →
      Named definitions active enter word loc none
  | misused {body : List Stmt} :
      definitions.get? word.name = some (.block body) →
      Named definitions active enter word loc (some (refuse (.usedAsExpression word.name) loc))
  | circular {body : Expr} :
      definitions.get? word.name = some (.expr body) →
      word.name ∈ active →
      Named definitions active enter word loc (some (refuse (.circularUse word.name) word.loc))
  | entered {body : Expr} :
      definitions.get? word.name = some (.expr body) →
      word.name ∉ active →
      Named definitions active enter word loc (some (enter word body))

theorem named_of_nameRule {given : Option (Lowering (Revised Expr))}
    (asked : nameRule definitions active enter (.ident word loc) = given) :
    Named definitions active enter word loc given := by
  rw [← asked, nameRule]
  cases found : definitions.get? word.name with
  | none => exact .undefined found
  | some definition =>
    cases definition with
    | block body => exact .misused found
    | expr body =>
      dsimp only
      split
      · next isActive => exact .circular found (contains_iff_mem.mp isActive)
      · next inactive => exact .entered found (mt contains_iff_mem.mpr inactive)

theorem nameRule_of_none (undefined : definitions.get? word.name = none) :
    nameRule definitions active enter (.ident word loc) = none := by
  rw [nameRule, undefined]

theorem nameRule_of_expr {body : Expr} (found : definitions.get? word.name = some (.expr body))
    (inactive : word.name ∉ active) :
    nameRule definitions active enter (.ident word loc) = some (enter word body) := by
  rw [nameRule, found]
  exact if_neg (mt contains_iff_mem.mp inactive)

theorem opensUp_nameRule : Expr.OpensUp (nameRule definitions active enter) :=
  fun isBranch _ => by cases isBranch <;> rfl

/-- An expression is revised alike if the definitions of the names that it mentions are entered
alike. -/
theorem revise_nameRule_congr (e : Expr)
    (same : ∀ word body, e.Mentions word.name → definitions.get? word.name = some (.expr body) →
      word.name ∉ active → enter word body = enter' word body) :
    e.revise (nameRule definitions active enter) = e.revise (nameRule definitions active enter') := by
  induction e using Expr.induction with
  | atom e isAtom =>
    rw [Expr.revise_atom _ isAtom, Expr.revise_atom _ isAtom]
    cases e with
    | ident word loc =>
      have mentioned := (Expr.mentions_ident word loc).mpr rfl
      unfold nameRule
      dsimp only
      cases found : definitions.get? word.name with
      | none => rfl
      | some definition =>
        cases definition with
        | block body => rfl
        | expr body =>
          dsimp only
          by_cases isActive : active.contains word.name = true
          · rw [if_pos isActive, if_pos isActive]
          · rw [same word body mentioned found (mt contains_iff_mem.mpr isActive)]
    | subscript | list | compound => cases isAtom
    | _ => rfl
  | subscript base key loc _ =>
    rw [Expr.revise, Expr.revise]
    rfl
  | branch isBranch values ih =>
    have inside := reviseList_congr fun value member => ih value member fun word body mentioned =>
      same word body (Expr.spreads_mentions.surfaces isBranch member mentioned)
    rw [isBranch.revise (opensUp_nameRule isBranch values),
      isBranch.revise (opensUp_nameRule isBranch values), inside]

def NamesNone (definitions : Table Definition) (e : Expr) : Prop :=
  ∀ name, e.Mentions name → definitions.get? name = none

/-- An expression that mentions names with good expansions only has a good expansion. -/
theorem becomes_namesNone (inner : ∀ word body, e.Mentions word.name →
      definitions.get? word.name = some (.expr body) → word.name ∉ active →
      Becomes (NamesNone definitions) (enter word body)) :
    Becomes (NamesNone definitions) (e.revise (nameRule definitions active enter)) := by
  refine @Revises.becomes _ (fun e => ∀ word body, e.Mentions word.name →
    definitions.get? word.name = some (.expr body) → word.name ∉ active →
    Becomes (NamesNone definitions) (enter word body)) _ ⟨?_, ?_, ?_, ?_⟩ e inner
  · intro e answer inner answered
    cases e with
    | ident word loc =>
      cases named_of_nameRule answered with
      | misused _ => exact .of_refuse _ _
      | circular _ _ => exact .of_refuse _ _
      | entered found inactive =>
        exact inner word _ ((Expr.mentions_ident word loc).mpr rfl) found inactive
    | subscript base key loc =>
      cases answered
      exact .of_pure fun name mentioned =>
        absurd mentioned (Expr.not_mentions_subscript base key loc)
    | _ => cases answered
  · intro e _ isAtom unanswered name mentioned
    obtain ⟨word, loc, rfl, rfl⟩ := mentioned.eq_ident_of_isAtom isAtom
    cases named_of_nameRule unanswered with
    | undefined absent => exact absent
  · intro base key loc _ unanswered
    cases unanswered
  · intro build values isBranch inner _
    constructor
    · intro value member word body mentioned
      exact inner word body (Expr.spreads_mentions.surfaces isBranch member mentioned)
    · intro revised _ free name mentioned
      obtain ⟨value, member, inValue⟩ := (Expr.spreads_mentions isBranch).mp mentioned
      exact free value member name inValue

theorem exists_ident_of_revise {failure : Failure} (e : Expr)
    (failed : e.revise (nameRule definitions active enter) = .error failure) :
    ∃ word loc, e.Mentions word.name ∧
      nameRule definitions active enter (.ident word loc) = some (.error failure) := by
  induction e using Expr.induction with
  | atom e isAtom =>
    rw [Expr.revise_atom _ isAtom] at failed
    cases e with
    | ident word loc =>
      cases answer : nameRule definitions active enter (.ident word loc) with
      | none =>
        rw [answer] at failed
        cases failed
      | some given =>
        rw [answer] at failed
        exact ⟨word, loc, (Expr.mentions_ident word loc).mpr rfl,
          answer.trans (congrArg some failed)⟩
    | subscript | list | compound => cases isAtom
    | _ => cases failed
  | subscript base key loc _ =>
    rw [Expr.revise] at failed
    cases failed
  | branch isBranch values ih =>
    rw [isBranch.revise (opensUp_nameRule isBranch values)] at failed
    rcases bind_eq_error_iff.mp failed with inValues | ⟨_, _, impossible⟩
    · obtain ⟨value, member, valueFailed⟩ := exists_error_of_reviseList inValues
      obtain ⟨word, loc, inside, answered⟩ := ih value member valueFailed
      exact ⟨word, loc, Expr.spreads_mentions.surfaces isBranch member inside, answered⟩
    · cases impossible

def Within (definitions all : Table Definition) : Prop :=
  ∀ name definition, definitions.get? name = some definition → all.get? name = some definition

/-- Definitions that were not there before make no difference to an expression if nothing that it
mentions in the end is defined. -/
theorem revise_nameRule_within {all : Table Definition} (within : Within definitions all)
    (inner : ∀ {word body revised}, enter word body = .ok revised →
      NamesNone all revised.value → enter' word body = .ok revised)
    {revised : Revised Expr} (ran : e.revise (nameRule definitions active enter) = .ok revised)
    (undefined : NamesNone all revised.value) :
    e.revise (nameRule all active enter') = .ok revised := by
  induction e using Expr.induction generalizing revised with
  | atom e isAtom =>
    rw [Expr.revise_atom _ isAtom] at ran ⊢
    cases e with
    | ident word loc =>
      generalize asked : nameRule definitions active enter (.ident word loc) = given at ran
      cases named_of_nameRule asked with
      | undefined _ =>
        -- A name that is left alone is mentioned in the result, so `all` leaves it alone too.
        cases ran
        rw [nameRule_of_none (undefined word.name ((Expr.mentions_ident word loc).mpr rfl))]
        rfl
      | misused _ => cases ran
      | circular _ _ => cases ran
      | entered found inactive =>
        rw [nameRule_of_expr (within _ _ found) inactive]
        exact inner ran undefined
    | subscript | list | compound => cases isAtom
    | _ => exact ran
  | subscript base key loc _ =>
    rw [Expr.revise] at ran ⊢
    exact ran
  | branch isBranch values ih =>
    rw [isBranch.revise (opensUp_nameRule isBranch values)] at ran ⊢
    obtain ⟨newValues, valuesRan, rfl⟩ := bind_pure_eq_ok_iff.mp ran
    have others := reviseList_of_each valuesRan fun value member found foundRan inside =>
      ih value member foundRan fun name mentions =>
        undefined name (Expr.spreads_mentions.surfaces isBranch inside mentions)
    exact bind_pure_eq_ok_iff.mpr ⟨newValues, others, rfl⟩

end Names

/-! ## Statements -/

/-- What becomes of a statement, if `enter` says what becomes of the use of a name that is defined
and not yet active, and `value` what becomes of a value or condition. -/
def useRule (definitions : Table Definition) (active : List String)
    (enter : Ident → List Stmt → Lowering (List Stmt))
    (value : Expr → Lowering (Revised Expr)) : Stmt → Lowering (List Stmt)
  | .use word _ =>
    match definitions.get? word.name with
    | none => refuse (.unknownDefinition word.name) word.loc
    | some (.expr _) => refuse (.usedAsStatement word.name) word.loc
    | some (.block body) =>
      if active.contains word.name then
        refuse (.circularUse word.name) word.loc
      else
        enter word body
  | .defineExpr _ _ _ | .defineBlock _ _ _ => broken .nestedDefinition
  | s => do return [← s.revise unrevised value]

/-- What entering a definition gives as long as there is fuel. -/
def enterStmts (definitions : Table Definition) (active : List String) :
    (fuel : Nat) → Ident → List Stmt → Lowering (List Stmt)
  | 0, word, _ => refuse (.circularUse word.name) word.loc
  | fuel + 1, word, body => expandStmts definitions fuel (word.name :: active) body

theorem expandStmts_eq (definitions : Table Definition) (fuel : Nat) (active : List String)
    (statements : List Stmt) :
    expandStmts definitions fuel active statements =
      lowerEach (useRule definitions active (enterStmts definitions active fuel)
        (expandExpr definitions fuel active)) statements := by
  rw [expandStmts]
  congr 1
  funext s
  cases s with
  | use word tag => cases fuel <;> rfl
  | _ => rfl

section Uses

variable {enter enter' : Ident → List Stmt → Lowering (List Stmt)}
variable {value value' : Expr → Lowering (Revised Expr)} {s : Stmt} {tag : Tag}

/-- What is found under a name that is used as a statement. -/
inductive Used (definitions : Table Definition) (active : List String)
    (enter : Ident → List Stmt → Lowering (List Stmt)) (word : Ident) : Lowering (List Stmt) → Prop
  | refused {error : SemanticError} :
      (∀ name, error ≠ .circularUse name) →
      Used definitions active enter word (refuse error word.loc)
  | circular {body : List Stmt} :
      definitions.get? word.name = some (.block body) →
      word.name ∈ active →
      Used definitions active enter word (refuse (.circularUse word.name) word.loc)
  | entered {body : List Stmt} :
      definitions.get? word.name = some (.block body) →
      word.name ∉ active →
      Used definitions active enter word (enter word body)

theorem used_of_useRule {given : Lowering (List Stmt)}
    (asked : useRule definitions active enter value (.use word tag) = given) :
    Used definitions active enter word given := by
  rw [← asked, useRule]
  cases found : definitions.get? word.name with
  | none => exact .refused fun _ same => by cases same
  | some definition =>
    cases definition with
    | expr body => exact .refused fun _ same => by cases same
    | block body =>
      dsimp only
      split
      · next isActive => exact .circular found (contains_iff_mem.mp isActive)
      · next inactive => exact .entered found (mt contains_iff_mem.mpr inactive)

theorem useRule_of_block {body : List Stmt}
    (found : definitions.get? word.name = some (.block body)) (inactive : word.name ∉ active) :
    useRule definitions active enter value (.use word tag) = enter word body := by
  rw [useRule, found]
  exact if_neg (mt contains_iff_mem.mp inactive)

theorem useRule_congr
    (sameBody : ∀ word tag body, s = .use word tag →
      definitions.get? word.name = some (.block body) → word.name ∉ active →
      enter word body = enter' word body)
    (sameValue : ∀ e, s.HasPart (· = e) → value e = value' e) :
    useRule definitions active enter value s = useRule definitions active enter' value' s := by
  cases s with
  | use word tag =>
    unfold useRule
    dsimp only
    cases found : definitions.get? word.name with
    | none => rfl
    | some definition =>
      cases definition with
      | expr body => rfl
      | block body =>
        dsimp only
        by_cases isActive : active.contains word.name = true
        · rw [if_pos isActive, if_pos isActive]
        · rw [sameBody word tag body rfl found (mt contains_iff_mem.mpr isActive)]
  | assign target right condition tag =>
    have sameRight := sameValue right (.inl rfl)
    cases condition with
    | none => simp only [useRule, Stmt.revise, sameRight, reviseOption]
    | some condition =>
      have sameCondition := sameValue condition (.inr ⟨condition, rfl, rfl⟩)
      simp only [useRule, Stmt.revise, sameRight, reviseOption, sameCondition]
  | openBlock condition tag =>
    have sameCondition := sameValue condition rfl
    simp only [useRule, Stmt.revise, sameCondition]
  | _ => rfl

theorem useRule_of_not_isDefinitional (plain : s.isDefinitional = false) :
    useRule definitions active enter value s =
      s.revise unrevised value >>= fun revised => pure [revised] := by
  cases s with
  | use name tag => cases plain
  | defineExpr name body tag => cases plain
  | defineBlock name body tag => cases plain
  | _ => rfl

end Uses

end Definition

end AutomationScript
