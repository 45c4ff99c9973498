import AutomationScript.Proofs.Term.Row

/-!
# Expressions that their texts determine

The text of an expression determines the expression, with and without parentheses around the whole,
if nothing in it was written in braces and no name or string in it has a quote
(`Expr.evalText_eq_iff_sameTree`).
-/

namespace AutomationScript

namespace Expr

/-- An expression whose text can be read back: operators have the operands that they take, keys are
names, nothing was written in braces, and no name or string has a quote in it. -/
inductive Legible : Expr → Prop where
  | string {value : String} (loc : Option Location) :
      '\'' ∉ value.toList →
      Legible (.string value loc)
  | number (value : Number) (loc : Option Location) :
      Legible (.number value loc)
  | boolean (value : Bool) (loc : Option Location) :
      Legible (.boolean value loc)
  | reference {base key : Ident} (keyLoc loc : Option Location) :
      base.name ≠ evalName →
      '\'' ∉ base.name.toList →
      '\'' ∉ key.name.toList →
      Legible (.subscript base (.ident key keyLoc) loc)
  | negation {operand : Expr} (loc : Option Location) :
      Legible operand →
      Legible (.compound .not [operand] loc)
  | binary (operator : Operator) {left right : Expr} (loc : Option Location) :
      operator ≠ .not →
      Legible left →
      Legible right →
      Legible (.compound operator [left, right] loc)

/-- The same tree, wherever its nodes stand.  Two numbers are the same if they are written the same
way. -/
inductive SameTree : Expr → Expr → Prop where
  | string (value : String) (loc loc' : Option Location) :
      SameTree (.string value loc) (.string value loc')
  | number {value value' : Number} (loc loc' : Option Location) :
      value.text = value'.text →
      SameTree (.number value loc) (.number value' loc')
  | boolean (value : Bool) (loc loc' : Option Location) :
      SameTree (.boolean value loc) (.boolean value loc')
  | reference {base base' key key' : Ident} (keyLoc keyLoc' loc loc' : Option Location) :
      base.name = base'.name →
      key.name = key'.name →
      SameTree (.subscript base (.ident key keyLoc) loc)
        (.subscript base' (.ident key' keyLoc') loc')
  | negation {operand operand' : Expr} (loc loc' : Option Location) :
      SameTree operand operand' →
      SameTree (.compound .not [operand] loc) (.compound .not [operand'] loc')
  | binary {operator : Operator} {left right left' right' : Expr} (loc loc' : Option Location) :
      operator ≠ .not →
      SameTree left left' →
      SameTree right right' →
      SameTree (.compound operator [left, right] loc) (.compound operator [left', right'] loc')

/-- The term that a legible expression spells. -/
inductive Spells : Expr → Term → Prop where
  | string (value : String) (loc : Option Location) :
      Spells (.string value loc) (.string value)
  | number {value : Number} {text : String} (loc : Option Location) :
      value.text = text →
      Spells (.number value loc) (.numeral text)
  | boolean (value : Bool) (loc : Option Location) :
      Spells (.boolean value loc) (.boolean value)
  | reference {base key : Ident} {baseName keyName : String} (keyLoc loc : Option Location) :
      base.name ≠ evalName →
      base.name = baseName →
      key.name = keyName →
      Spells (.subscript base (.ident key keyLoc) loc) (.call baseName keyName)
  | negation {operand : Expr} {inner : Term} (loc : Option Location) :
      Spells operand inner →
      Spells (.compound .not [operand] loc) (.negation inner)
  | binary {operator : Operator} {left right : Expr} {leftTerm rightTerm : Term}
      (loc : Option Location) :
      operator ≠ .not →
      Spells left leftTerm →
      Spells right rightTerm →
      Spells (.compound operator [left, right] loc) (.binary operator leftTerm rightTerm)

theorem Spells.term?_eq {e : Expr} {term : Term} (spells : e.Spells term) :
    e.term? = some term := by
  induction spells with
  | string value loc => rfl
  | number loc written => rw [term?, written]
  | boolean value loc => rfl
  | reference keyLoc loc notEval baseSame keySame =>
    rw [term?, if_neg notEval, baseSame, keySame]
  | negation loc _ ih =>
    rw [term?_not, ih]
    rfl
  | binary loc notNot _ _ ihLeft ihRight =>
    rw [term?_binary notNot, ihLeft, ihRight]
    rfl

theorem Spells.sameTree {e e' : Expr} {term : Term} (spells : e.Spells term)
    (spells' : e'.Spells term) : e.SameTree e' := by
  induction spells generalizing e' with
  | string value loc =>
    cases spells' with
    | string _ loc' => exact .string value loc loc'
  | number loc written =>
    cases spells' with
    | number loc' written' => exact .number loc loc' (written.trans written'.symm)
  | boolean value loc =>
    cases spells' with
    | boolean _ loc' => exact .boolean value loc loc'
  | reference keyLoc loc _ baseSame keySame =>
    cases spells' with
    | reference keyLoc' loc' _ baseSame' keySame' =>
      exact .reference keyLoc keyLoc' loc loc' (baseSame.trans baseSame'.symm)
        (keySame.trans keySame'.symm)
  | negation loc _ ih =>
    cases spells' with
    | negation loc' inner' => exact .negation loc loc' (ih inner')
  | binary loc notNot _ _ ihLeft ihRight =>
    cases spells' with
    | binary loc' _ left' right' => exact .binary loc loc' notNot (ihLeft left') (ihRight right')

theorem SameTree.term?_eq {e e' : Expr} (same : e.SameTree e') : e.term? = e'.term? := by
  induction same with
  | string value loc loc' => rfl
  | number loc loc' written => rw [term?, term?, written]
  | boolean value loc loc' => rfl
  | reference keyLoc keyLoc' loc loc' baseSame keySame =>
    rw [term?, term?, baseSame, keySame]
  | negation loc loc' _ ih =>
    rw [term?_not, term?_not, ih]
  | binary loc loc' notNot _ _ ihLeft ihRight =>
    rw [term?_binary notNot, term?_binary notNot, ihLeft, ihRight]

theorem Legible.exists_spells {e : Expr} (legible : e.Legible) :
    ∃ term, e.Spells term ∧ term.Plain := by
  induction legible with
  | string loc free =>
    exact ⟨_, .string _ loc, free⟩
  | number value loc =>
    exact ⟨_, .number loc rfl, isNumeral_text value⟩
  | boolean value loc =>
    exact ⟨_, .boolean value loc, True.intro⟩
  | reference keyLoc loc notEval baseFree keyFree =>
    exact ⟨_, .reference keyLoc loc notEval rfl rfl, baseFree, keyFree⟩
  | negation loc _ ih =>
    obtain ⟨term, spells, plain⟩ := ih
    exact ⟨.negation term, .negation loc spells, plain⟩
  | binary operator loc notNot _ _ ihLeft ihRight =>
    obtain ⟨left, leftSpells, leftPlain⟩ := ihLeft
    obtain ⟨right, rightSpells, rightPlain⟩ := ihRight
    exact ⟨_, .binary loc notNot leftSpells rightSpells, leftPlain, rightPlain⟩

end Expr

/-- Plain terms with the same text are the same, whether or not the texts are wrapped. -/
theorem Term.text_injective {left right : Term} (plainLeft : left.Plain)
    (plainRight : right.Plain) {wrap : Bool} (equal : left.text wrap = right.text wrap) :
    left = right := by
  cases wrap with
  | true =>
    have chars : (left.text true).toList ++ [] = (right.text true).toList ++ [] := by
      rw [equal]
    have ends : Stops [] := True.intro
    exact (text_append_injective plainLeft plainRight ends ends chars).1
  | false =>
    -- Without parentheses around it, a text shows the operands of the root.
    have chars : left.parts.chars = right.parts.chars := by
      rw [← toList_text_false, ← toList_text_false, equal]
    exact parts_injective
      (Row.chars_injective (plain_parts plainLeft) (plain_parts plainRight) chars)

/-- Legible expressions have a text, and the texts of two of them are the same exactly when the
expressions are the same tree. -/
theorem Expr.evalText_eq_iff_sameTree
    {e e' : Expr} (legible : e.Legible) (legible' : e'.Legible) (wrap : Bool) :
    ∃ text text', e.evalText wrap = .ok text ∧ e'.evalText wrap = .ok text' ∧
      (text = text' ↔ e.SameTree e') := by
  obtain ⟨term, spells, plain⟩ := legible.exists_spells
  obtain ⟨term', spells', plain'⟩ := legible'.exists_spells
  refine ⟨term.text wrap, term'.text wrap, ?_, ?_, ?_, ?_⟩
  · exact evalText_eq_ok_iff.mpr ⟨term, spells.term?_eq, rfl⟩
  · exact evalText_eq_ok_iff.mpr ⟨term', spells'.term?_eq, rfl⟩
  · intro equal
    have sameTerm : term = term' := Term.text_injective plain plain' equal
    exact spells.sameTree (sameTerm ▸ spells')
  · intro same
    have sameTerm := same.term?_eq
    rw [spells.term?_eq, spells'.term?_eq] at sameTerm
    rw [Option.some.inj sameTerm]

/-- A negation around a comparison and one inside it are told apart, next to a negative number. -/
theorem Expr.evalText_ne_negatedComparison :
    ∃ text text',
      (Expr.compound .not [.compound .lt [.subscript ⟨"ResourceQuantity", none⟩
        (.ident ⟨"Coal", none⟩ none) none, .number (.ofInt (-5)) none] none] none).evalText false =
          .ok text ∧
      (Expr.compound .lt [.compound .not [.subscript ⟨"ResourceQuantity", none⟩
        (.ident ⟨"Coal", none⟩ none) none] none, .number (.ofInt (-5)) none] none).evalText false =
          .ok text' ∧
      text ≠ text' := by
  have reference :
      Legible (.subscript ⟨"ResourceQuantity", none⟩ (.ident ⟨"Coal", none⟩ none) none) :=
    .reference none none (by decide) (by decide) (by decide)
  have number : Legible (.number (.ofInt (-5)) none) := .number _ none
  have around := Legible.negation none (.binary .lt none (by decide) reference number)
  have inside := Legible.binary .lt none (by decide) (.negation none reference) number
  obtain ⟨text, text', spelled, spelled', same⟩ := evalText_eq_iff_sameTree around inside false
  refine ⟨text, text', spelled, spelled', fun equal => ?_⟩
  cases same.mp equal

end AutomationScript
