import AutomationScript.Proofs.Grammar.Derivations
import AutomationScript.Proofs.Grammar.Mirror

/-!
# Reading the same expression in two places

Every reader of expressions does the same in both places of a splice, one lemma for each reader.
-/

namespace AutomationScript

open Reader Splice

structure Phrase.Same (slack : Slack) (phrase phrase' : Phrase) : Prop where
  expr : phrase.expr.Same slack phrase'.expr
  loc : slack.places (some phrase.loc) (some phrase'.loc)

namespace Grammar

variable {splice : Splice} {n : Nat} {pre : Token → Prop} {operand operand' : Reader Phrase}
variable {t : Token} {fuel fuel' : Nat}

abbrev MirrorsPhrase (splice : Splice) (n : Nat) (x y : Reader Phrase) : Prop :=
  splice.Mirrors n 1 (fun _ => True) (Phrase.Same splice.slack) x y

/-! ## Operators -/

/-- No operator of the level stands at the end of a statement. -/
structure IsLevel (operator? : Token → Option Operator) : Prop where
  stops : ∀ t, isStop t = true → operator? t = none

variable {operator? : Token → Option Operator}

theorem IsLevel.goesOn (isLevel : IsLevel operator?) {operator : Operator}
    (asked : operator? t = some operator) : isStop t = false := by
  cases stops : isStop t with
  | false => rfl
  | true =>
    rw [isLevel.stops t stops] at asked
    cases asked

theorem isLevel_or : IsLevel orOperator? :=
  ⟨forall_isStop rfl rfl rfl⟩

theorem isLevel_and : IsLevel andOperator? :=
  ⟨forall_isStop rfl rfl rfl⟩

theorem isLevel_comparison : IsLevel comparisonOperator? :=
  ⟨forall_isStop rfl rfl rfl⟩

theorem isLevel_sum : IsLevel sumOperator? :=
  ⟨forall_isStop rfl rfl rfl⟩

theorem isLevel_product : IsLevel productOperator? :=
  ⟨forall_isStop rfl rfl rfl⟩

theorem same_binary {slack : Slack} (operator : Operator) {left left' right right' : Phrase}
    (lefts : left.Same slack left') (rights : right.Same slack right') :
    (Phrase.binary operator left right).Same slack (Phrase.binary operator left' right') := by
  have placed := slack.union lefts.loc rights.loc
  exact ⟨.ofCompound (.cons lefts.expr (.cons rights.expr .nil)) placed, placed⟩

theorem mirrors_chain (isLevel : IsLevel operator?)
    (operands : MirrorsPhrase splice n operand operand') (enough : n < fuel) (enough' : n < fuel')
    {left left' : Phrase} (lefts : left.Same splice.slack left') :
    splice.Mirrors n 0 (fun _ => True) (Phrase.Same splice.slack)
      (chain operand operator? fuel left) (chain operand' operator? fuel' left') := by
  induction fuel generalizing n fuel' left left' with
  | zero => omega
  | succ fuel ih =>
    obtain ⟨fuel', rfl⟩ : ∃ fewer, fuel' = fewer + 1 := ⟨fuel' - 1, by omega⟩
    have atStop := isLevel.stops
    apply InStep.peek_bind_alike fun s stops => by
      rw [atStop s stops, atStop .eof rfl]
      exact ⟨rfl, rfl⟩
    intro token _
    cases asked : operator? token with
    | none => exact .pure lefts
    | some operator =>
      have goesOn := goesOn_of_eq (isLevel.goesOn asked)
      apply (InStep.advance goesOn).discard.bind_loose
      intro _ _ m _ fewer
      apply (operands.within (by omega)).bind_loose
      intro right right' k rights fewerStill
      exact ih (operands.within (by omega)) (by omega) (by omega)
        (same_binary operator lefts rights)

theorem mirrors_level (isLevel : IsLevel operator?)
    (operands : MirrorsPhrase splice n operand operand') :
    MirrorsPhrase splice n (level operator? operand) (level operator? operand') := by
  apply operands.bind
  intro left left' m lefts fewer
  apply InStep.get_bind
  intro xs ys k short fits fits'
  exact mirrors_chain isLevel (operands.within (by omega)) fits fits' lefts

theorem mirrors_negations (operands : MirrorsPhrase splice n operand operand') (enough : n < fuel)
    (enough' : n < fuel') :
    MirrorsPhrase splice n (negations operand fuel) (negations operand' fuel') := by
  induction fuel generalizing n fuel' with
  | zero => omega
  | succ fuel ih =>
    obtain ⟨fuel', rfl⟩ : ∃ fewer, fuel' = fewer + 1 := ⟨fuel' - 1, by omega⟩
    apply InStep.peek_bind_alike (forall_isStop ⟨rfl, rfl⟩ ⟨rfl, rfl⟩ ⟨rfl, rfl⟩)
    intro token _
    by_cases isNot : token = .notWord
    · subst isNot
      apply (InStep.advance (goesOn_of_eq rfl)).bind
      intro start start' m starts fewer
      apply (ih (operands.within (by omega)) (by omega) (by omega)).bind_loose
      intro inner inner' k inners fewerStill
      have placed := starts.union inners.loc
      exact .pure ⟨.ofCompound (.cons inners.expr .nil) placed, placed⟩
    · rw [if_neg isNot, if_neg isNot]
      exact operands.within (Nat.le_refl n)

theorem mirrors_sum (operands : MirrorsPhrase splice n operand operand') :
    MirrorsPhrase splice n (sum operand) (sum operand') :=
  mirrors_level isLevel_sum (mirrors_level isLevel_product operands)

theorem mirrors_disjunction (operands : MirrorsPhrase splice n operand operand') :
    MirrorsPhrase splice n (disjunction operand) (disjunction operand') := by
  have comparisons := mirrors_level isLevel_comparison (mirrors_sum operands)
  have negated : MirrorsPhrase splice n (negation (comparison operand))
      (negation (comparison operand')) := by
    apply InStep.get_bind
    intro xs ys k short fits fits'
    exact mirrors_negations (comparisons.within short) fits fits'
  exact mirrors_level isLevel_or (mirrors_level isLevel_and negated)

/-! ## Lists -/

theorem mirrors_element (operands : MirrorsPhrase splice n operand operand') :
    splice.Mirrors n 1 (fun _ => True) (Expr.Same splice.slack) (element operand)
      (element operand') := by
  apply InStep.peek_bind_alike (forall_isStop ⟨rfl, rfl⟩ ⟨rfl, rfl⟩ ⟨rfl, rfl⟩)
  intro token _
  cases token with
  | star =>
    exact (InStep.advance (goesOn_of_eq rfl)).bind fun _ _ _ placed _ =>
      .pure (.atom (.wildcard placed))
  | ellipsis =>
    exact (InStep.advance (goesOn_of_eq rfl)).bind fun _ _ _ placed _ =>
      .pure (.atom (.placeholder placed))
  | _ =>
    exact ((mirrors_sum operands).within (Nat.le_refl n)).bind fun _ _ _ sums _ =>
      .pure sums.expr

structure ListBody.Same (slack : Slack) (body body' : ListBody) : Prop where
  values : List.Forall₂ (Expr.Same slack) body.values body'.values
  fold : body.fold = body'.fold
  separators : body.separators = body'.separators

variable {body body' : ListBody} {loc loc' : Location}

theorem ListBody.Same.phrase {slack : Slack} (same : body.Same slack body')
    (placed : slack.places (some loc) (some loc')) :
    (body.phrase loc).Same slack (body'.phrase loc') := by
  obtain ⟨values, fold, count⟩ := body
  obtain ⟨values', _, _⟩ := body'
  obtain ⟨each, rfl, rfl⟩ := same
  have all : (Phrase.exact (.list values fold) loc).Same slack
      (Phrase.exact (.list values' fold) loc') := ⟨.ofList each placed, placed⟩
  cases count with
  | succ count => exact all
  | zero =>
    cases each with
    | nil => exact all
    | cons first rest =>
      cases rest with
      | nil => exact ⟨first, placed⟩
      | cons _ _ => exact all

theorem separator_goesOn {asked : Option Fold} (separates : separator? t = some asked) :
    isStop t = false := by
  cases t <;> first | rfl | cases separates

theorem mirrors_elements (operands : MirrorsPhrase splice n operand operand') (enough : n < fuel)
    (enough' : n < fuel') (same : body.Same splice.slack body') :
    splice.Mirrors n 1 (fun _ => True) (ListBody.Same splice.slack) (elements operand fuel body)
      (elements operand' fuel' body') := by
  induction fuel generalizing n fuel' body body' with
  | zero => omega
  | succ fuel ih =>
    obtain ⟨fuel', rfl⟩ : ∃ fewer, fuel' = fewer + 1 := ⟨fuel' - 1, by omega⟩
    obtain ⟨values, fold, count⟩ := body
    obtain ⟨values', _, _⟩ := body'
    obtain ⟨each, rfl, rfl⟩ := same
    apply (mirrors_element operands).bind
    intro value value' m sameValue fewer
    have longer : List.Forall₂ (Expr.Same splice.slack) (values ++ [value]) (values' ++ [value']) :=
      List.rel_append each (.cons sameValue .nil)
    apply InStep.peek_bind_alike (forall_isStop ⟨rfl, rfl⟩ ⟨rfl, rfl⟩ ⟨rfl, rfl⟩)
    intro token _
    dsimp only
    cases separates : separator? token with
    | none => exact .pure ⟨longer, rfl, rfl⟩
    | some asked =>
      have goesOn := goesOn_of_eq (separator_goesOn separates)
      apply (InStep.advance goesOn).bind_loose
      intro loc loc' k placed fewerStill
      split
      · exact .fail_bind placed
      · apply InStep.peek_bind_alike (forall_isStop ⟨rfl, rfl⟩ ⟨rfl, rfl⟩ ⟨rfl, rfl⟩)
        intro found _
        split
        · exact .pure ⟨longer, rfl, rfl⟩
        · have more {rest rest' : ListBody} (same : rest.Same splice.slack rest') :=
            ih (operands.within (show k ≤ n by omega)) (by omega) (show k < fuel' by omega) same
          exact .loose (.within (more ⟨longer, rfl, rfl⟩) (Nat.le_refl k))

theorem mirrors_bracketed (operands : ∀ m, m + 1 ≤ n → MirrorsPhrase splice m operand operand') :
    MirrorsPhrase splice n (bracketed operand) (bracketed operand') := by
  rw [bracketed_eq, bracketed_eq]
  apply (InStep.expect rfl).bind
  intro opening opening' m openings fewer
  apply InStep.peek_bind_alike (forall_isStop ⟨rfl, rfl⟩ ⟨rfl, rfl⟩ ⟨rfl, rfl⟩)
  intro token _
  by_cases empty : token = .rightBracket
  · subst empty
    exact .here_bind (goesOn_of_eq rfl) fun loc loc' placed => .fail_bind (openings.union placed)
  · rw [if_neg empty, if_neg empty]
    apply InStep.get_bind
    intro xs ys k short fits fits'
    have nothing : ListBody.Same splice.slack ⟨[], none, 0⟩ ⟨[], none, 0⟩ := ⟨.nil, rfl, rfl⟩
    have inside := mirrors_elements (operands k (by omega)) fits fits' nothing
    apply (inside.within (Nat.le_refl k)).bind_loose
    intro body body' j bodies fewerStill
    apply (InStep.expect rfl).bind_loose
    intro closing closing' _ closings _
    exact .pure (bodies.phrase (openings.union closings))

/-! ## Operands -/

theorem mirrors_dottedKey : MirrorsPhrase splice n dottedKey dottedKey := by
  apply InStep.peek_bind_naming ⟨_, fun _ => rfl⟩ (forall_isStop ⟨rfl, rfl⟩ ⟨rfl, rfl⟩ ⟨rfl, rfl⟩)
  intro token isBefore
  apply InStep.here_bind (goesOn_of_eq isBefore)
  intro loc loc' wordPlaced
  have advances : splice.Mirrors n 1 (· = token) splice.Places advance advance :=
    .advance (goesOn_of_eq isBefore)
  cases token with
  | star => exact advances.bind fun _ _ _ placed _ => .pure ⟨.atom (.wildcard placed), placed⟩
  | ellipsis =>
    exact advances.bind fun _ _ _ placed _ => .pure ⟨.atom (.placeholder placed), placed⟩
  | ident name =>
    exact advances.bind fun _ _ _ placed _ =>
      .pure ⟨.atom (.ident ⟨rfl, wordPlaced⟩ placed), placed⟩
  | _ => exact .fail wordPlaced

theorem mirrors_reference (operands : ∀ m, m + 1 ≤ n → MirrorsPhrase splice m operand operand') :
    MirrorsPhrase splice n (reference operand) (reference operand') := by
  apply InStep.expectIdent.bind
  rintro ⟨name, loc⟩ ⟨_, loc'⟩ m ⟨rfl, placed⟩ fewer
  have subscripted : ∀ {key key' : Phrase}, key.Same splice.slack key' →
      (Phrase.exact (.subscript ⟨name, some loc⟩ key.expr) (loc.union key.loc)).Same splice.slack
        (Phrase.exact (.subscript ⟨name, some loc'⟩ key'.expr) (loc'.union key'.loc)) := by
    intro key key' keys
    have covered := splice.slack.union placed keys.loc
    exact ⟨.subscript ⟨rfl, placed⟩ keys.expr covered, covered⟩
  apply InStep.peek_bind_alike (forall_isStop ⟨rfl, rfl⟩ ⟨rfl, rfl⟩ ⟨rfl, rfl⟩)
  intro token _
  cases token with
  | dot =>
    apply (InStep.advance (goesOn_of_eq rfl)).discard.bind_loose
    intro _ _ k _ fewerStill
    exact (mirrors_dottedKey.bind fun _ _ _ keys _ => .pure (subscripted keys)).loose
  | leftBracket =>
    have bracketedMirrors := mirrors_bracketed operands
    apply (bracketedMirrors.within (by omega)).bind_loose
    exact fun _ _ _ keys _ => .pure (subscripted keys)
  | _ => exact .pure ⟨.atom (.ident ⟨rfl, placed⟩ placed), placed⟩

theorem mirrors_leaf (goesOn : isStop t = false) {node node' : Location → Option Location → Expr}
    (moves : ∀ {loc loc'}, splice.Places loc loc' →
      (node loc (some loc)).Same splice.slack (node' loc' (some loc'))) :
    splice.Mirrors n 1 (· = t) (Phrase.Same splice.slack)
      (advance >>= fun loc => pure (Phrase.exact (node loc) loc))
      (advance >>= fun loc => pure (Phrase.exact (node' loc) loc)) :=
  (InStep.advance (goesOn_of_eq goesOn)).bind fun _ _ _ placed _ =>
    .pure ⟨moves placed, placed⟩

/-- What follows a sign, told by the token after it. -/
def signed (loc : Location) : (second : Token) → Reader Phrase
  | .number value => do
    discard advance
    let stop ← advance
    return Phrase.exact (.number value.negate) (loc.union stop)
  | _ => unexpected

theorem mirrors_signed (placed : splice.Places loc loc') :
    splice.Mirrors n 1 (· = .minus) (Phrase.Same splice.slack) (peekSecond >>= signed loc)
      (peekSecond >>= signed loc') := by
  intro m few t xs ys shown isMinus
  have fails : splice.Mirrors m 1 (fun _ => True) (Phrase.Same splice.slack) unexpected
      unexpected := .unexpected
  have failed := fails m (Nat.le_refl m) t xs ys shown True.intro
  cases shown with
  | stop _ => cases isMinus
  | @token _ second _ sign sign' xs ys _ _ rest =>
    change Ends _ _ _ _ (signed loc (headToken xs) (⟨t, sign⟩ :: xs))
      (signed loc' (headToken ys) (⟨t, sign'⟩ :: ys))
    cases rest with
    | stop stops =>
      have alike : ∀ loc s, isStop s = true → signed loc s = unexpected :=
        fun _ => forall_isStop rfl rfl rfl
      rw [alike _ _ (splice.stops stops).1, alike _ _ (splice.stops stops).2]
      exact failed
    | @token _ _ _ stop stop' xs ys _ stops rest =>
      cases second with
      | number value =>
        have covered := placed.union stops
        obtain ⟨moved, moved'⟩ := rest.after_cons ⟨.number value, stop⟩ ⟨.number value, stop'⟩
        change Ends _ _ _ _
          (.ok (Phrase.exact (.number value.negate) (loc.union stop)) (after (_ :: xs)))
          (.ok (Phrase.exact (.number value.negate) (loc'.union stop')) (after (_ :: ys)))
        rw [moved, moved']
        exact .ok ⟨.atom (.number _ covered), covered⟩
          (.shown rest (Nat.le_succ _) Bool.noConfusion)
      | _ => exact failed

theorem mirrors_primary {depth depth' : Nat} (enough : n < depth) (enough' : n < depth') :
    MirrorsPhrase splice n (primary depth) (primary depth') := by
  induction depth generalizing n depth' with
  | zero => omega
  | succ depth ih =>
    obtain ⟨depth', rfl⟩ : ∃ fewer, depth' = fewer + 1 := ⟨depth' - 1, by omega⟩
    have inner : ∀ m, m + 1 ≤ n → MirrorsPhrase splice m (primary depth) (primary depth') :=
      fun m fewer => ih (by omega) (by omega)
    apply InStep.here_peek_bind_alike fun _ _ => forall_isStop ⟨rfl, rfl⟩ ⟨rfl, rfl⟩ ⟨rfl, rfl⟩
    intro token loc loc' placed
    cases token with
    | number value => exact mirrors_leaf rfl fun placed => .atom (.number value placed)
    | string value => exact mirrors_leaf rfl fun placed => .atom (.string value placed)
    | on => exact mirrors_leaf rfl fun placed => .atom (.boolean true placed)
    | off => exact mirrors_leaf rfl fun placed => .atom (.boolean false placed)
    | eval text =>
      exact mirrors_leaf rfl fun placed =>
        .subscript ⟨rfl, placed⟩ (.atom (.ident ⟨rfl, placed⟩ placed)) placed
    | minus => exact mirrors_signed (placed rfl)
    | leftParen =>
      apply (InStep.advance (goesOn_of_eq rfl)).discard.bind
      intro _ _ m _ fewer
      apply (mirrors_disjunction (inner m fewer)).bind_loose
      intro phrase phrase' k phrases _
      apply (InStep.expect rfl).bind_loose
      intro closing closing' _ closings _
      exact .pure ⟨phrases.expr, (placed rfl).union closings⟩
    | leftBracket => exact (mirrors_bracketed inner).within (Nat.le_refl n)
    | ident name => exact (mirrors_reference inner).within (Nat.le_refl n)
    | _ => exact .unexpected

theorem mirrors_expression : MirrorsPhrase splice n expression expression := by
  apply InStep.get_bind
  intro xs ys k short fits fits'
  exact mirrors_disjunction (mirrors_primary fits fits')

theorem mirrors_target : MirrorsPhrase splice n target target := by
  apply InStep.get_bind
  intro xs ys k short fits fits'
  exact mirrors_reference fun m fewer => mirrors_primary (by omega) (by omega)

end Grammar

end AutomationScript
