import AutomationScript.Proofs.Term.Reading
import AutomationScript.Proofs.Text.Brackets
import AutomationScript.Text.Blank

/-!
# Operators that a text shows

An operator in a text joins what stands on both sides of it, unless it stands between brackets or
quotes.  The text of an operand shows no operator, since a binary operand is wrapped, unless it was
written in braces.
-/

namespace AutomationScript

open List

/-! ## Operators in texts -/

/-- Whether an operand has still to come after this character. -/
def awaitsOperand (c : Char) : Bool :=
  ['!', '&', '|', '=', '<', '>', '+', '-', '*', '/', '%', '^', '~', '?', ':', ',', ';'].contains c

/-- Whether an operand ends with this character, or before it if it is a blank. -/
def endsWith (ended : Bool) (c : Char) : Bool :=
  if isBlank c then ended else !awaitsOperand c

/-- Whether a text ends with an operand, blanks apart; `ended` says so of what stands before it. -/
def endsOperand (ended : Bool) (chars : List Char) : Bool :=
  chars.foldl endsWith ended

/-- A binary operator follows `before` in a text, outside of brackets and quotes.  A sign is no
binary operator, since no operand stands before it. -/
def OperatorAfter (before text : List Char) : Prop :=
  WellBracketed before ∧ endsOperand false before = true ∧
    ∃ operator after, operator ≠ .not ∧
      text = before ++ (Operator.evalSymbol operator).toList ++ after

/-- A text has a binary operator outside of brackets and quotes. -/
def ShowsOperator (text : List Char) : Prop :=
  ∃ before, OperatorAfter before text

variable {text : List Char}

theorem showsOperator_iff :
    ShowsOperator text ↔ ∃ size ∈ List.range (text.length + 1),
      WellBracketed (text.take size) ∧ endsOperand false (text.take size) = true ∧
        ∃ operator ∈ Operator.all, operator ≠ .not ∧
          operator.evalSymbol.toList.isPrefixOf (text.drop size) = true := by
  constructor
  · rintro ⟨before, closed, ended, operator, after, notNot, rfl⟩
    have inside : before.length ∈
        List.range ((before ++ operator.evalSymbol.toList ++ after).length + 1) := by
      rw [mem_range, length_append, length_append]
      omega
    refine ⟨before.length, inside, ?_⟩
    rw [append_assoc]
    rw [take_left, drop_left]
    refine ⟨closed, ended, operator, by cases operator <;> decide, notNot, ?_⟩
    exact isPrefixOf_iff_prefix.mpr (prefix_append _ after)
  · rintro ⟨size, _, closed, ended, operator, _, notNot, starts⟩
    obtain ⟨after, rest⟩ := isPrefixOf_iff_prefix.mp starts
    refine ⟨text.take size, closed, ended, operator, after, notNot, ?_⟩
    rw [append_assoc, rest, take_append_drop]

instance (text : List Char) : Decidable (ShowsOperator text) :=
  decidable_of_iff _ showsOperator_iff.symm

theorem endsOperand_append (ended : Bool) (front back : List Char) :
    endsOperand ended (front ++ back) = endsOperand (endsOperand ended front) back :=
  foldl_append

section Symbols

variable {operator : Operator} (notNot : operator ≠ .not)

include notNot

theorem evalSymbol_ne_nil : operator.evalSymbol.toList ≠ [] := by
  cases operator with
  | not => exact absurd rfl notNot
  | _ => decide

theorem evalSymbol_all :
    operator.evalSymbol.toList.all
      (fun c => awaitsOperand c && !isBlank c && !bracketMarks.contains c) = true := by
  cases operator with
  | not => exact absurd rfl notNot
  | _ => decide

theorem evalSymbol_awaits :
    ∀ c ∈ operator.evalSymbol.toList, awaitsOperand c = true ∧ isBlank c = false := by
  intro c member
  have each := all_eq_true.mp (evalSymbol_all notNot) c member
  simp only [Bool.and_eq_true, Bool.not_eq_true'] at each
  exact each.1

theorem evalSymbol_unbracketed : ∀ c ∈ operator.evalSymbol.toList, c ∉ bracketMarks := by
  intro c member
  have each := all_eq_true.mp (evalSymbol_all notNot) c member
  simp only [Bool.and_eq_true, Bool.not_eq_true', contains_eq_mem, decide_eq_false_iff_not]
    at each
  exact each.2

end Symbols

theorem endsOperand_symbol {chars : List Char} (nonempty : chars ≠ [])
    (symbol : ∀ c ∈ chars, awaitsOperand c = true ∧ isBlank c = false) (ended : Bool) :
    endsOperand ended chars = false := by
  induction chars generalizing ended with
  | nil => exact absurd rfl nonempty
  | cons c rest ih =>
    obtain ⟨awaits, visible⟩ := symbol c mem_cons_self
    have first : endsWith ended c = false := by
      simp [endsWith, visible, awaits]
    rw [endsOperand, foldl_cons, first]
    by_cases last : rest = []
    · rw [last]
      rfl
    · exact ih last (fun c member => symbol c (mem_cons_of_mem _ member)) false

namespace OperatorAfter

variable {before text : List Char}

theorem ne_nil (found : OperatorAfter before text) : before ≠ [] := by
  rintro rfl
  cases found.2.1

theorem exists_cons (found : OperatorAfter before text) :
    ∃ c rest, awaitsOperand c = true ∧ c ∉ bracketMarks ∧ text = before ++ c :: rest := by
  obtain ⟨_, _, operator, after, notNot, rfl⟩ := found
  obtain ⟨c, rest, symbol⟩ := exists_cons_of_ne_nil (evalSymbol_ne_nil notNot)
  have first : c ∈ operator.evalSymbol.toList := symbol ▸ mem_cons_self
  refine ⟨c, rest ++ after, (evalSymbol_awaits notNot c first).1,
    evalSymbol_unbracketed notNot c first, ?_⟩
  rw [symbol]
  simp

end OperatorAfter

theorem not_showsOperator_of_tail (plain : text.tail.any awaitsOperand = false) :
    ¬ ShowsOperator text := by
  rintro ⟨before, found⟩
  obtain ⟨c, rest, awaits, _, rfl⟩ := found.exists_cons
  obtain ⟨first, others, rfl⟩ := exists_cons_of_ne_nil found.ne_nil
  exact any_eq_false.mp plain c (by simp) awaits

/-- A text that is well bracketed at its two ends only shows no operator. -/
theorem not_showsOperator_of_enclosed
    (ends : ∀ before rest, text = before ++ rest → WellBracketed before → before = [] ∨ rest = []) :
    ¬ ShowsOperator text := by
  rintro ⟨before, found⟩
  obtain ⟨c, rest, _, _, cut⟩ := found.exists_cons
  rcases ends before (c :: rest) cut found.1 with empty | whole
  · exact found.ne_nil empty
  · cases whole

theorem wellBracketed_cons_iff {c : Char} (plain : c ∉ bracketMarks) {chars : List Char} :
    WellBracketed (c :: chars) ↔ WellBracketed chars := by
  rw [WellBracketed, Bracket.after, Bracket.step_of_notMem plain]
  rfl

theorem showsOperator_negation_iff : ShowsOperator ('!' :: text) ↔ ShowsOperator text := by
  have plain : '!' ∉ bracketMarks := by decide
  have ends (chars : List Char) : endsOperand false ('!' :: chars) = endsOperand false chars := rfl
  constructor
  · rintro ⟨before, found⟩
    obtain ⟨first, others, rfl⟩ := exists_cons_of_ne_nil found.ne_nil
    obtain ⟨closed, ended, operator, after, notNot, cut⟩ := found
    obtain ⟨rfl, cutAfter⟩ := List.cons.inj cut
    exact ⟨others, (wellBracketed_cons_iff plain).mp closed, ends others ▸ ended, operator, after,
      notNot, cutAfter⟩
  · rintro ⟨before, closed, ended, operator, after, notNot, rfl⟩
    exact ⟨'!' :: before, (wellBracketed_cons_iff plain).mpr closed, (ends before).trans ended,
      operator, after, notNot, rfl⟩

theorem word_beside_blank {front back before word after : List Char} (nonempty : word ≠ [])
    (noBlank : ' ' ∉ word) (cut : front ++ ' ' :: back = before ++ (word ++ after)) :
    (∃ rest, front = before ++ (word ++ rest)) ∨
      ∃ middle, before = front ++ ' ' :: middle ∧ back = middle ++ (word ++ after) := by
  rcases append_eq_append_iff.mp cut with ⟨tail, rfl, later⟩ | ⟨tail, rfl, earlier⟩
  · cases tail with
    | nil =>
      obtain ⟨c, rest, rfl⟩ := exists_cons_of_ne_nil nonempty
      obtain ⟨rfl, _⟩ := List.cons.inj later
      exact absurd mem_cons_self noBlank
    | cons c middle =>
      obtain ⟨rfl, afterBlank⟩ := List.cons.inj later
      exact .inr ⟨middle, rfl, afterBlank⟩
  · rcases append_eq_append_iff.mp earlier with ⟨rest, rfl, _⟩ | ⟨rest, rfl, crossing⟩
    · exact .inl ⟨rest, rfl⟩
    · cases rest with
      | nil => exact .inl ⟨[], by simp⟩
      | cons c others =>
        obtain ⟨rfl, _⟩ := List.cons.inj crossing
        exact absurd (mem_append_right tail mem_cons_self) noBlank

/-- What stands before the right operand of an operator. -/
def joint (left : List Char) (operator : Operator) : List Char :=
  left ++ ' ' :: (operator.evalSymbol.toList ++ [' '])

theorem joint_append (left right : List Char) (operator : Operator) :
    joint left operator ++ right = left ++ ' ' :: (operator.evalSymbol.toList ++ ' ' :: right) := by
  simp [joint]

variable {operator : Operator}

theorem wellBracketed_joint {left : List Char} (notNot : operator ≠ .not)
    (closed : WellBracketed left) : WellBracketed (joint left operator) := by
  refine closed.append (.of_notMem fun c member => ?_)
  rcases mem_cons.mp member with rfl | member
  · decide
  · rcases mem_append.mp member with inSymbol | isBlank
    · exact evalSymbol_unbracketed notNot c inSymbol
    · rw [mem_singleton.mp isBlank]
      decide

theorem endsOperand_joint (notNot : operator ≠ .not) (left : List Char) :
    endsOperand false (joint left operator) = false := by
  rw [joint, ← singleton_append, endsOperand_append, endsOperand_append, endsOperand_append,
    endsOperand_symbol (evalSymbol_ne_nil notNot) (evalSymbol_awaits notNot)]
  rfl

/-- Between two operands that show no operator, only the operator that joins them is shown. -/
theorem OperatorAfter.eq_of_joined {left right before : List Char} (notNot : operator ≠ .not)
    (closed : WellBracketed left) (leftShows : ¬ ShowsOperator left)
    (rightShows : ¬ ShowsOperator right)
    (found : OperatorAfter before (joint left operator ++ right)) : before = left ++ [' '] := by
  obtain ⟨beforeClosed, ended, shown, after, shownBinary, cut⟩ := found
  have noBlank := shown.space_notMem_evalSymbol
  have nonempty := evalSymbol_ne_nil shownBinary
  rw [joint_append, append_assoc] at cut
  rcases word_beside_blank nonempty noBlank cut with ⟨rest, rfl⟩ | ⟨middle, rfl, later⟩
  · exact absurd ⟨before, beforeClosed, ended, shown, rest, shownBinary, by simp⟩ leftShows
  · rcases word_beside_blank nonempty noBlank later with ⟨rest, inside⟩ | ⟨start, rfl, rfl⟩
    · cases middle with
      | nil => rfl
      | cons c others =>
        -- The place is inside the symbol, where an operand is still awaited.
        have partOf : ∀ x ∈ c :: others, awaitsOperand x = true ∧ isBlank x = false :=
          fun x member =>
            evalSymbol_awaits notNot x (inside ▸ mem_append_left _ member)
        rw [← singleton_append, endsOperand_append, endsOperand_append,
          endsOperand_symbol (cons_ne_nil c others) partOf] at ended
        cases ended
    · -- The place is in the right operand, which stands after a text that awaits it.
      rw [← joint_append] at beforeClosed ended
      rw [endsOperand_append, endsOperand_joint notNot] at ended
      have startClosed := (wellBracketed_joint notNot closed).of_append beforeClosed
      exact absurd ⟨start, startClosed, ended, shown, after, shownBinary, by simp⟩ rightShows

/-! ## Texts of operands -/

theorem unsigned_char {c : Char} (unsigned : (isNumeralChar c && c != '-') = true) :
    awaitsOperand c = false ∧ c ∉ bracketMarks := by
  have noOther : (bracketMarks ++ ['!', '&', '|', '=', '<', '>', '+', '-', '*', '/', '%', '^', '~',
      '?', ':', ',', ';']).any (fun x => isNumeralChar x && x != '-') = false := by
    decide
  constructor
  · refine Bool.eq_false_iff.mpr fun awaits => ?_
    have symbol := mem_append_right bracketMarks (contains_iff_mem.mp awaits)
    exact any_eq_false.mp noOther c symbol unsigned
  · intro mark
    exact any_eq_false.mp noOther c (mem_append_left _ mark) unsigned

/-- A number is well bracketed and shows no operator: a sign stands at its front only. -/
theorem number_text (x : Number) : WellBracketed x.text.toList ∧ ¬ ShowsOperator x.text.toList := by
  obtain ⟨body, unsigned, spelled⟩ := exists_unsigned_text x
  have chars : ∀ c ∈ body, awaitsOperand c = false ∧ c ∉ bracketMarks := fun c member =>
    unsigned_char (all_eq_true.mp unsigned c member)
  have closed : WellBracketed body := .of_notMem fun c member => (chars c member).2
  rcases spelled with spelled | spelled
  · rw [spelled]
    refine ⟨closed, not_showsOperator_of_tail (any_eq_false.mpr fun c member => ?_)⟩
    exact Bool.eq_false_iff.mp (chars c (mem_of_mem_tail member)).1
  · rw [spelled]
    refine ⟨(wellBracketed_cons_iff (by decide)).mpr closed, not_showsOperator_of_tail ?_⟩
    exact any_eq_false.mpr fun c member => Bool.eq_false_iff.mp (chars c member).1

theorem string_text {value : List Char} (free : '\'' ∉ value) :
    WellBracketed ('\'' :: (value ++ ['\''])) ∧ ¬ ShowsOperator ('\'' :: (value ++ ['\''])) :=
  ⟨.quoted free, not_showsOperator_of_enclosed fun _ _ cut closed =>
    WellBracketed.start_of_quoted free cut closed⟩

theorem parenthesized_text {inner : List Char} (closed : WellBracketed inner) :
    WellBracketed ('(' :: (inner ++ [')'])) ∧ ¬ ShowsOperator ('(' :: (inner ++ [')'])) :=
  ⟨closed.parenthesized, not_showsOperator_of_enclosed fun _ _ cut start =>
    closed.start_of_parenthesized cut start⟩

theorem callText_text {base key : String} (baseFree : '\'' ∉ base.toList)
    (keyFree : '\'' ∉ key.toList) :
    WellBracketed (Expr.callText base key).toList ∧
      ¬ ShowsOperator (Expr.callText base key).toList := by
  have spelled : (Expr.callText base key).toList =
      '_' :: '(' :: ((('\'' :: (base.toList ++ ['\''])) ++ [',', ' '] ++
        ('\'' :: (key.toList ++ ['\'']))) ++ [')']) := by
    simp [Expr.callText]
  have inside : WellBracketed (('\'' :: (base.toList ++ ['\''])) ++ [',', ' '] ++
      ('\'' :: (key.toList ++ ['\'']))) :=
    ((WellBracketed.quoted baseFree).append (by decide)).append (.quoted keyFree)
  have plain : '_' ∉ bracketMarks := by decide
  rw [spelled]
  refine ⟨(wellBracketed_cons_iff plain).mpr inside.parenthesized, ?_⟩
  rintro ⟨before, found⟩
  obtain ⟨first, others, rfl⟩ := exists_cons_of_ne_nil found.ne_nil
  obtain ⟨c, rest, _, cPlain, cut⟩ := found.exists_cons
  obtain ⟨rfl, cutAfter⟩ := List.cons.inj cut
  have closed := (wellBracketed_cons_iff plain).mp found.1
  rcases inside.start_of_parenthesized cutAfter closed with rfl | whole
  · obtain ⟨rfl, _⟩ := List.cons.inj cutAfter
    exact cPlain (by decide)
  · cases whole

namespace Expr

variable {e : Expr}

/-- An expression whose text closes all brackets and quotes that it opens: operators have the
operands that they take, keys are names, no name or string has a quote in it, and what was written
in braces is well bracketed. -/
inductive Embeddable : Expr → Prop where
  | string {value : String} (loc : Option Location) :
      '\'' ∉ value.toList →
      Embeddable (.string value loc)
  | number (value : Number) (loc : Option Location) :
      Embeddable (.number value loc)
  | boolean (value : Bool) (loc : Option Location) :
      Embeddable (.boolean value loc)
  | reference {base key : Ident} (keyLoc loc : Option Location) :
      base.name ≠ evalName →
      '\'' ∉ base.name.toList →
      '\'' ∉ key.name.toList →
      Embeddable (.subscript base (.ident key keyLoc) loc)
  | inline {base text : Ident} (keyLoc loc : Option Location) :
      base.name = evalName →
      WellBracketed text.name.toList →
      Embeddable (.subscript base (.ident text keyLoc) loc)
  | eval {text : String} (loc : Option Location) :
      WellBracketed text.toList →
      Embeddable (.eval text loc)
  | negation {operand : Expr} (loc : Option Location) :
      Embeddable operand →
      Embeddable (.compound .not [operand] loc)
  | binary (operator : Operator) {left right : Expr} (loc : Option Location) :
      operator ≠ .not →
      Embeddable left →
      Embeddable right →
      Embeddable (.compound operator [left, right] loc)

/-- The text in braces that an expression is, negations apart. -/
def braces? : Expr → Option String
  | .eval text _ => some text
  | .compound .not [operand] _ => operand.braces?
  | e => e.inlineEval?

/-- The expression is text in braces, negations apart, and the text shows an operator. -/
def ShowsBraces (e : Expr) : Prop :=
  ∃ text, e.braces? = some text ∧ ShowsOperator text.toList

theorem evalText_negation {operand : Expr} {text : String}
    (spelled : operand.evalText true = .ok text) (wrap : Bool) (loc : Option Location) :
    (Expr.compound .not [operand] loc).evalText wrap = .ok ("!" ++ text) := by
  rw [evalText, spelled]
  rfl

theorem evalText_binary (notNot : operator ≠ .not) {left right : Expr}
    {leftText rightText : String} (leftSpelled : left.evalText true = .ok leftText)
    (rightSpelled : right.evalText true = .ok rightText) (wrap : Bool) (loc : Option Location) :
    (Expr.compound operator [left, right] loc).evalText wrap =
      .ok (if wrap then "(" ++ (leftText ++ " " ++ operator.evalSymbol ++ " " ++ rightText) ++ ")"
        else leftText ++ " " ++ operator.evalSymbol ++ " " ++ rightText) := by
  rw [evalText, leftSpelled, rightSpelled]
  · rfl
  · exact notNot

theorem toList_joined (left right : String) (operator : Operator) :
    (left ++ " " ++ operator.evalSymbol ++ " " ++ right).toList =
      joint left.toList operator ++ right.toList := by
  simp [joint]

theorem toList_wrapped (left right : String) (operator : Operator) :
    (if true then "(" ++ (left ++ " " ++ operator.evalSymbol ++ " " ++ right) ++ ")"
      else left ++ " " ++ operator.evalSymbol ++ " " ++ right).toList =
      '(' :: (joint left.toList operator ++ right.toList ++ [')']) := by
  simp [joint]

theorem not_showsBraces (nothing : e.braces? = none) : ¬ e.ShowsBraces := by
  rintro ⟨text, found, _⟩
  rw [nothing] at found
  cases found

theorem showsBraces_iff {text : String} (found : e.braces? = some text) :
    e.ShowsBraces ↔ ShowsOperator text.toList := by
  constructor
  · rintro ⟨text', found', shows⟩
    rw [found] at found'
    cases found'
    exact shows
  · intro shows
    exact ⟨text, found, shows⟩

theorem braces?_binary (notNot : operator ≠ .not) (left right : Expr) (loc : Option Location) :
    braces? (.compound operator [left, right] loc) = none := by
  cases operator <;> rfl

/-- The text of an operand is well bracketed.  It shows an operator exactly if the operand is text
in braces that shows one. -/
theorem Embeddable.exists_evalText (embeddable : e.Embeddable) :
    ∃ text, e.evalText true = .ok text ∧ WellBracketed text.toList ∧
      (ShowsOperator text.toList ↔ e.ShowsBraces) := by
  induction embeddable with
  | @string value loc free =>
    obtain ⟨closed, shows⟩ := string_text free
    have spelled : ("'" ++ value ++ "'").toList = '\'' :: (value.toList ++ ['\'']) := by simp
    rw [← spelled] at closed shows
    exact ⟨_, rfl, closed, iff_of_false shows (not_showsBraces rfl)⟩
  | number value loc =>
    obtain ⟨closed, shows⟩ := number_text value
    exact ⟨_, rfl, closed, iff_of_false shows (not_showsBraces rfl)⟩
  | boolean value loc =>
    have word : WellBracketed (if value then "true" else "false").toList ∧
        ¬ ShowsOperator (if value then "true" else "false").toList := by
      cases value with
      | true => exact ⟨by decide, not_showsOperator_of_tail (by decide)⟩
      | false => exact ⟨by decide, not_showsOperator_of_tail (by decide)⟩
    exact ⟨_, rfl, word.1, iff_of_false word.2 (not_showsBraces rfl)⟩
  | @reference base key keyLoc loc notEval baseFree keyFree =>
    obtain ⟨closed, shows⟩ := callText_text baseFree keyFree
    have nothing : braces? (.subscript base (.ident key keyLoc) loc) = none := if_neg notEval
    refine ⟨_, ?_, closed, iff_of_false shows (not_showsBraces nothing)⟩
    rw [evalText, if_neg notEval]
  | @inline base text keyLoc loc isEval closed =>
    have found : braces? (.subscript base (.ident text keyLoc) loc) = some text.name :=
      if_pos isEval
    refine ⟨text.name, ?_, closed, (showsBraces_iff found).symm⟩
    rw [evalText, if_pos isEval]
  | @eval text loc closed =>
    exact ⟨text, rfl, closed, (showsBraces_iff rfl).symm⟩
  | @negation operand loc _ ih =>
    obtain ⟨text, spelled, closed, shows⟩ := ih
    have chars : ("!" ++ text).toList = '!' :: text.toList := by simp
    refine ⟨_, evalText_negation spelled true loc, ?_, ?_⟩
    · rw [chars]
      exact (wellBracketed_cons_iff (by decide)).mpr closed
    · rw [chars]
      exact showsOperator_negation_iff.trans shows
  | @binary operator left right loc notNot _ _ ihLeft ihRight =>
    obtain ⟨leftText, leftSpelled, leftClosed, _⟩ := ihLeft
    obtain ⟨rightText, rightSpelled, rightClosed, _⟩ := ihRight
    have inside : WellBracketed (joint leftText.toList operator ++ rightText.toList) :=
      (wellBracketed_joint notNot leftClosed).append rightClosed
    obtain ⟨closed, shows⟩ := parenthesized_text inside
    rw [← toList_wrapped] at closed shows
    exact ⟨_, evalText_binary notNot leftSpelled rightSpelled true loc, closed,
      iff_of_false shows (not_showsBraces (braces?_binary notNot left right loc))⟩

/-- The text of an operand is well bracketed, and it shows an operator exactly if the operand is
text in braces that shows one.  Two operands for which this is not so can be joined: in the text of
both, no operator is shown but the one that joins them. -/
theorem evalText_shows_iff {e : Expr} (embeddable : e.Embeddable) :
    ∃ text, e.evalText true = .ok text ∧ WellBracketed text.toList ∧
      (ShowsOperator text.toList ↔ e.ShowsBraces) ∧
      ∀ (e' : Expr) (operator : Operator) (loc : Option Location), e'.Embeddable →
        operator ≠ .not → ¬ e.ShowsBraces → ¬ e'.ShowsBraces →
        ∃ joined, (Expr.compound operator [e, e'] loc).evalText false = .ok joined ∧
          ∀ before, OperatorAfter before joined.toList → before = text.toList ++ [' '] := by
  obtain ⟨text, spelled, closed, shows⟩ := embeddable.exists_evalText
  refine ⟨text, spelled, closed, shows, ?_⟩
  intro e' operator loc embeddable' notNot noBraces noBraces'
  obtain ⟨text', spelled', _, shows'⟩ := embeddable'.exists_evalText
  refine ⟨_, evalText_binary notNot spelled spelled' false loc, fun before found => ?_⟩
  rw [if_neg Bool.false_ne_true, toList_joined] at found
  exact found.eq_of_joined notNot closed (mt shows.mp noBraces) (mt shows'.mp noBraces')

/-- A sum in braces keeps its grouping if parentheses are written around it. -/
theorem evalText_shows_parenthesizedSum :
    ∃ text joined,
      (Expr.compound .not [.subscript ⟨evalName, none⟩ (.ident ⟨"(1 + 2)", none⟩ none) none]
        none).evalText true = .ok text ∧
      ¬ ShowsOperator text.toList ∧
      (Expr.compound .mul [.compound .not [.subscript ⟨evalName, none⟩
        (.ident ⟨"(1 + 2)", none⟩ none) none] none, .number (.ofInt (-2)) none] none).evalText
          false = .ok joined ∧
      ∀ before, OperatorAfter before joined.toList → before = text.toList ++ [' '] := by
  have inline : Embeddable (.subscript ⟨evalName, none⟩ (.ident ⟨"(1 + 2)", none⟩ none) none) :=
    .inline none none rfl (by decide)
  obtain ⟨text, spelled, _, shows, joins⟩ := evalText_shows_iff (Embeddable.negation none inline)
  have noBraces : ¬ ShowsBraces (.compound .not
      [.subscript ⟨evalName, none⟩ (.ident ⟨"(1 + 2)", none⟩ none) none] none) :=
    mt (showsBraces_iff rfl).mp (by decide)
  obtain ⟨joined, joinedSpelled, only⟩ :=
    joins (.number (.ofInt (-2)) none) .mul none (.number _ none) (by decide) noBraces
      (not_showsBraces rfl)
  exact ⟨text, joined, spelled, mt shows.mp noBraces, joinedSpelled, only⟩

/-- A sum in braces shows its operator and is regrouped by a product, and so does a call with quotes
in its key. -/
theorem evalText_shows_inlineSum :
    (∃ e : Expr, e.Embeddable ∧ e.evalText true = .ok "1 + 2" ∧ ShowsOperator "1 + 2".toList ∧
      (Expr.compound .mul [e, .number (.ofInt 2) none] none).evalText false = .ok "1 + 2 * 2") ∧
    (Expr.subscript ⟨"Foo", none⟩ (.ident ⟨"x') + ('y", none⟩ none) none).evalText true =
        .ok "_('Foo', 'x') + ('y')" ∧
      ShowsOperator "_('Foo', 'x') + ('y')".toList := by
  refine ⟨⟨.subscript ⟨evalName, none⟩ (.ident ⟨"1 + 2", none⟩ none) none, ?_, rfl, by decide, rfl⟩,
    rfl, by decide⟩
  exact .inline none none rfl (by decide)

end Expr

end AutomationScript
