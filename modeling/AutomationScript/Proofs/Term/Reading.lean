import AutomationScript.Proofs.Term.Basic

/-!
# Reading terms back

`Term.read?` takes a wrapped term off the front of a text, if no string, base or key in it has a
quote and nothing in it was written in braces.  So wrapped texts determine their terms, wherever
they stand (`Term.text_append_injective`).
-/

namespace AutomationScript

open List

variable {rest word : List Char}

def isNumeralChar (c : Char) : Bool :=
  c.isDigit || ['-', '.', 'i', 'n', 'f', 'N', 'a'].contains c

def isNumeral (chars : List Char) : Bool :=
  chars.all isNumeralChar

def isUnsigned (chars : List Char) : Bool :=
  chars.all fun c => isNumeralChar c && c != '-'

theorem isUnsigned_append (left right : List Char) :
    isUnsigned (left ++ right) = (isUnsigned left && isUnsigned right) :=
  all_append

theorem isUnsigned_of_sublist {part whole : List Char} (sublist : part.Sublist whole)
    (unsigned : isUnsigned whole = true) : isUnsigned part = true := by
  apply all_eq_true.mpr
  intro c member
  exact all_eq_true.mp unsigned c (sublist.mem member)

theorem isUnsigned_toDigits (n : Nat) : isUnsigned (Nat.toDigits 10 n) = true := by
  apply all_eq_true.mpr
  intro c member
  have digit : c.isDigit = true :=
    Nat.isDigit_of_mem_toDigits (by decide) (by decide) member
  have noSign : c ≠ '-' := by
    rintro rfl
    exact absurd digit (by decide)
  simp [isNumeralChar, digit, noSign]

theorem isUnsigned_zeros (count : Nat) : isUnsigned (List.replicate count '0') = true := by
  apply all_eq_true.mpr
  intro c member
  rw [eq_of_mem_replicate member]
  decide

theorem isUnsigned_positional (d : Decimal) : isUnsigned d.positional = true := by
  have text : isUnsigned d.digitText = true :=
    isUnsigned_toDigits d.digits
  have point (front back : List Char)
      (first : isUnsigned front = true) (second : isUnsigned back = true) :
      isUnsigned (front ++ '.' :: back) = true := by
    have mark : isUnsigned ['.'] = true := by decide
    rw [← singleton_append, isUnsigned_append, isUnsigned_append, first, mark, second]
    rfl
  unfold Decimal.positional
  dsimp only
  split
  · rw [isUnsigned_append, text]
    exact isUnsigned_zeros _
  · split
    · exact point _ _
        (isUnsigned_of_sublist (take_sublist _ _) text)
        (isUnsigned_of_sublist (drop_sublist _ _) text)
    · have filled :
          isUnsigned (List.replicate ((-d.power).toNat - d.digitText.length) '0' ++ d.digitText) =
            true := by
        rw [isUnsigned_append, isUnsigned_zeros, text]
        rfl
      exact point ['0'] _ (by decide) filled

theorem exists_unsigned_withSign {chars : List Char} (unsigned : isUnsigned chars = true)
    (negative : Prop) [Decidable negative] :
    ∃ body, isUnsigned body = true ∧
      ((String.ofList (if negative then '-' :: chars else chars)).toList = body ∨
        (String.ofList (if negative then '-' :: chars else chars)).toList = '-' :: body) := by
  refine ⟨chars, unsigned, ?_⟩
  rw [String.toList_ofList]
  split
  · exact .inr rfl
  · exact .inl rfl

theorem exists_unsigned_text (x : Number) :
    ∃ body, isUnsigned body = true ∧ (x.text.toList = body ∨ x.text.toList = '-' :: body) := by
  unfold Number.text
  split
  next n _ => exact exists_unsigned_withSign (isUnsigned_toDigits _) _
  next =>
    cases x with
    | finite negative significand exponent =>
      unfold Number.plainText
      dsimp only
      split
      · have zero : isUnsigned ['0'] = true := by decide
        exact exists_unsigned_withSign zero _
      · exact exists_unsigned_withSign (isUnsigned_positional _) _
    | infinite negative =>
      have name : isUnsigned ['i', 'n', 'f'] = true := by decide
      exact exists_unsigned_withSign name _
    | notANumber => exact ⟨['N', 'a', 'N'], by decide, .inl rfl⟩

theorem isNumeral_text (x : Number) : isNumeral x.text.toList = true := by
  obtain ⟨body, unsigned, spelled⟩ := exists_unsigned_text x
  have numeral : isNumeral body = true := by
    apply all_eq_true.mpr
    intro c member
    exact (Bool.and_eq_true_iff.mp (all_eq_true.mp unsigned c member)).1
  rcases spelled with spelled | spelled
  · rw [spelled]
    exact numeral
  · have sign : isNumeralChar '-' = true := by decide
    rw [spelled]
    exact Bool.and_eq_true_iff.mpr ⟨sign, numeral⟩

/-- The operator with this spelling in text for the runtime, if there is one. -/
def Operator.ofEvalSymbol? (symbol : List Char) : Option Operator :=
  all.find? fun operator => operator.evalSymbol.toList == symbol

theorem Operator.ofEvalSymbol?_evalSymbol (operator : Operator) :
    ofEvalSymbol? operator.evalSymbol.toList = some operator := by
  cases operator <;> decide

theorem Operator.space_notMem_evalSymbol (operator : Operator) :
    ' ' ∉ operator.evalSymbol.toList := by
  cases operator <;> decide

/-- Splits a text at the first mark, which is dropped. -/
def splitAtMark (mark : Char) (chars : List Char) : List Char × List Char :=
  (chars.takeWhile (· != mark), (chars.dropWhile (· != mark)).drop 1)

theorem splitAtMark_append {mark : Char} {chars : List Char} (free : mark ∉ chars)
    (rest : List Char) : splitAtMark mark (chars ++ mark :: rest) = (chars, rest) := by
  have belongs : ∀ c ∈ chars, (c != mark) = true := by
    intro c member
    have different : c ≠ mark := fun same => free (same ▸ member)
    simpa using different
  unfold splitAtMark
  rw [takeWhile_append_of_pos belongs, dropWhile_append_of_pos belongs]
  simp

/-- The characters that end a term or start one that is no word. -/
def marks : List Char :=
  [' ', ')', '(', '!', '_', '\'']

def isWordChar (c : Char) : Bool :=
  !marks.contains c

/-- What can follow a term in a text. -/
def Stops : List Char → Prop
  | [] => True
  | c :: _ => c = ' ' ∨ c = ')'

theorem Stops.head_notWord {c : Char} (stops : Stops (c :: rest)) : isWordChar c = false := by
  rcases stops with rfl | rfl <;> decide

theorem isWordChar_of_isNumeralChar {c : Char} (numeral : isNumeralChar c = true) :
    isWordChar c = true := by
  have noMark : marks.any isNumeralChar = false := by decide
  by_cases mark : c ∈ marks
  · have found : marks.any isNumeralChar = true := any_eq_true.mpr ⟨c, mark, numeral⟩
    rw [noMark] at found
    cases found
  · simpa [isWordChar] using mark

theorem takeWhile_word (belongs : ∀ c ∈ word, isWordChar c = true) (stops : Stops rest) :
    (word ++ rest).takeWhile isWordChar = word := by
  rw [takeWhile_append_of_pos belongs]
  cases rest with
  | nil =>
    simp
  | cons c others =>
    have outside : isWordChar c = false := stops.head_notWord
    simp [outside]

theorem dropWhile_word (belongs : ∀ c ∈ word, isWordChar c = true) (stops : Stops rest) :
    (word ++ rest).dropWhile isWordChar = rest := by
  rw [dropWhile_append_of_pos belongs]
  cases rest with
  | nil =>
    rfl
  | cons c others =>
    have outside : isWordChar c = false := stops.head_notWord
    simp [outside]

namespace Term

/-- A term whose text can be read back: no text in it has a quote, and none was written in
braces. -/
def Plain : Term → Prop
  | .string value => '\'' ∉ value.toList
  | .numeral text => isNumeral text.toList = true
  | .boolean _ => True
  | .call base key => '\'' ∉ base.toList ∧ '\'' ∉ key.toList
  | .raw _ => False
  | .negation operand => operand.Plain
  | .binary _ left right => left.Plain ∧ right.Plain

/-- The number of operators on the longest way down. -/
def height : Term → Nat
  | .negation operand => operand.height + 1
  | .binary _ left right => max left.height right.height + 1
  | _ => 0

def ofWord (word : List Char) : Term :=
  if word = "true".toList then .boolean true
  else if word = "false".toList then .boolean false
  else .numeral (String.ofList word)

/-- Reads a wrapped term off the front of a text. -/
def read? : (fuel : Nat) → List Char → Option (Term × List Char)
  | _, '\'' :: rest =>
    let (value, after) := splitAtMark '\'' rest
    some (.string (String.ofList value), after)
  | _, '_' :: rest =>
    let (base, after) := splitAtMark '\'' (rest.drop 2)
    let (key, after) := splitAtMark '\'' (after.drop 3)
    some (.call (String.ofList base) (String.ofList key), after.drop 1)
  | fuel + 1, '!' :: rest => do
    let (operand, after) ← read? fuel rest
    return (.negation operand, after)
  | fuel + 1, '(' :: rest => do
    let (left, after) ← read? fuel rest
    let (symbol, after) := splitAtMark ' ' (after.drop 1)
    let operator ← Operator.ofEvalSymbol? symbol
    let (right, after) ← read? fuel after
    return (.binary operator left right, after.drop 1)
  | _, chars => some (ofWord (chars.takeWhile isWordChar), chars.dropWhile isWordChar)

theorem read?_word (belongs : ∀ c ∈ word, isWordChar c = true) (stops : Stops rest) (fuel : Nat) :
    read? fuel (word ++ rest) = some (ofWord word, rest) := by
  -- The first character is one of the word or one that ends it, and starts no other term.
  have first (mark : Char) (others : List Char)
      (inWord : isWordChar mark = false) (notEnd : ¬ Stops (mark :: others)) :
      word ++ rest ≠ mark :: others := by
    intro split
    cases word with
    | nil =>
      rw [nil_append] at split
      exact notEnd (split ▸ stops)
    | cons head tail =>
      have same : head = mark := (List.cons.inj split).1
      have inside : isWordChar head = true := belongs head mem_cons_self
      rw [same, inWord] at inside
      cases inside
  have notStop {mark : Char} {others : List Char} (blank : mark ≠ ' ') (closing : mark ≠ ')') :
      ¬ Stops (mark :: others) := by
    rintro (same | same)
    · exact blank same
    · exact closing same
  rw [read?]
  · rw [takeWhile_word belongs stops, dropWhile_word belongs stops]
  · exact fun others => first _ others (by decide) (notStop (by decide) (by decide))
  · exact fun others => first _ others (by decide) (notStop (by decide) (by decide))
  · exact fun _ others _ => first _ others (by decide) (notStop (by decide) (by decide))
  · exact fun _ others _ => first _ others (by decide) (notStop (by decide) (by decide))

theorem ofWord_numeral {text : String} (numeral : isNumeral text.toList = true) :
    ofWord text.toList = .numeral text := by
  have notTrue : text.toList ≠ "true".toList := by
    intro same
    rw [same] at numeral
    exact absurd numeral (by decide)
  have notFalse : text.toList ≠ "false".toList := by
    intro same
    rw [same] at numeral
    exact absurd numeral (by decide)
  rw [ofWord, if_neg notTrue, if_neg notFalse, String.ofList_toList]

/-- The text of a plain term, wrapped, can be read back from the front of any text in which it
stands before a blank, a closing parenthesis or the end. -/
theorem read?_text {term : Term} (plain : term.Plain) :
    ∀ {fuel : Nat} {rest : List Char}, term.height ≤ fuel → Stops rest →
      read? fuel ((term.text true).toList ++ rest) = some (term, rest) := by
  induction term with
  | string value =>
    intro fuel rest _ _
    have free : '\'' ∉ value.toList := plain
    have spelled :
        ((string value).text true).toList ++ rest = '\'' :: (value.toList ++ '\'' :: rest) := by
      simp [text]
    rw [spelled, read?, splitAtMark_append free]
    simp
  | numeral text =>
    intro fuel rest _ stops
    have numeral : isNumeral text.toList = true := plain
    have belongs : ∀ c ∈ text.toList, isWordChar c = true := fun c member =>
      isWordChar_of_isNumeralChar (all_eq_true.mp numeral c member)
    have word := read?_word belongs stops fuel
    rw [ofWord_numeral numeral] at word
    exact word
  | boolean value =>
    intro fuel rest _ stops
    cases value with
    | false =>
      have belongs : ∀ c ∈ "false".toList, isWordChar c = true :=
        all_eq_true.mp (by decide)
      exact read?_word belongs stops fuel
    | true =>
      have belongs : ∀ c ∈ "true".toList, isWordChar c = true :=
        all_eq_true.mp (by decide)
      exact read?_word belongs stops fuel
  | call base key =>
    intro fuel rest _ _
    obtain ⟨baseFree, keyFree⟩ : '\'' ∉ base.toList ∧ '\'' ∉ key.toList := plain
    have spelled :
        ((call base key).text true).toList ++ rest =
          '_' :: '(' :: '\'' :: (base.toList ++ '\'' :: ',' :: ' ' :: '\'' ::
            (key.toList ++ '\'' :: ')' :: rest)) := by
      simp [text, Expr.callText]
    rw [spelled, read?]
    simp only [drop_succ_cons, drop_zero, splitAtMark_append baseFree,
      splitAtMark_append keyFree, String.ofList_toList]
  | raw text =>
    exact plain.elim
  | negation operand ih =>
    intro fuel rest enough stops
    cases fuel with
    | zero =>
      exact absurd enough (Nat.not_succ_le_zero _)
    | succ fuel =>
      have inner := ih plain (Nat.le_of_succ_le_succ enough) stops
      have spelled :
          ((negation operand).text true).toList ++ rest =
            '!' :: ((operand.text true).toList ++ rest) := by
        simp [text]
      rw [spelled, read?, inner]
      rfl
  | binary operator left right ihLeft ihRight =>
    intro fuel rest enough stops
    cases fuel with
    | zero =>
      exact absurd enough (Nat.not_succ_le_zero _)
    | succ fuel =>
      have enoughBoth : max left.height right.height ≤ fuel := Nat.le_of_succ_le_succ enough
      have spelled :
          ((binary operator left right).text true).toList ++ rest =
            '(' :: ((left.text true).toList ++ ' ' :: (operator.evalSymbol.toList ++ ' ' ::
              ((right.text true).toList ++ ')' :: rest))) := by
        simp [text]
      have blankStops :
          Stops (' ' :: (operator.evalSymbol.toList ++ ' ' ::
            ((right.text true).toList ++ ')' :: rest))) := Or.inl rfl
      have closingStops : Stops (')' :: rest) := Or.inr rfl
      have readLeft :=
        ihLeft plain.1 (Nat.le_trans (Nat.le_max_left _ _) enoughBoth) blankStops
      have readRight :=
        ihRight plain.2 (Nat.le_trans (Nat.le_max_right _ _) enoughBoth) closingStops
      rw [spelled, read?, readLeft]
      simp only [Option.bind_eq_bind, Option.bind_some, drop_succ_cons, drop_zero,
        splitAtMark_append operator.space_notMem_evalSymbol,
        Operator.ofEvalSymbol?_evalSymbol, readRight]
      rfl

/-- Wrapped texts of plain terms determine the terms, wherever they stop. -/
theorem text_append_injective {left right : Term} (plainLeft : left.Plain)
    (plainRight : right.Plain) {leftRest rightRest : List Char} (leftStops : Stops leftRest)
    (rightStops : Stops rightRest)
    (equal : (left.text true).toList ++ leftRest = (right.text true).toList ++ rightRest) :
    left = right ∧ leftRest = rightRest := by
  have readLeft :=
    read?_text plainLeft (Nat.le_max_left left.height right.height) leftStops
  have readRight :=
    read?_text plainRight (Nat.le_max_right left.height right.height) rightStops
  rw [equal, readRight] at readLeft
  have same := Prod.mk.inj (Option.some.inj readLeft)
  exact ⟨same.1.symm, same.2.symm⟩

end Term
end AutomationScript
