import AutomationScript.Json.Decode
import AutomationScript.Json.Printer
import AutomationScript.Proofs.Table

/-!
# Reading what was written

A value is read back from its compact and from its indented text (`Textual.parse?_compact`,
`Textual.parse?_indented`), if its texts are texts and its numbers are natural numbers.
-/

namespace AutomationScript

open List

namespace Json

/-! ## Texts in quotes -/

section Texts

variable {fuel : Nat} {written chars after : List Char}

/-- The characters up to a closing quote stand for the given ones. -/
def ReadsText (fuel : Nat) (written chars after : List Char) : Prop :=
  ∃ units, readUnits? fuel written = some (units, after) ∧ joinUnits? units = some chars

namespace ReadsText

theorem plain {c : Char} (visible : 0x20 ≤ c.toNat) (notQuote : c ≠ '"') (notEscape : c ≠ '\\')
    (reads : ReadsText fuel written chars after) :
    ReadsText (fuel + 1) (c :: written) (c :: chars) after := by
  obtain ⟨units, read, joined⟩ := reads
  refine ⟨.char c :: units, ?_, by simp [joinUnits?, joined]⟩
  simp [readUnits?, notQuote, notEscape, Nat.not_lt.mpr visible, read]

theorem letter {letter c : Char} (escapes : simpleEscape? letter = some c)
    (reads : ReadsText fuel written chars after) :
    ReadsText (fuel + 1) ('\\' :: letter :: written) (c :: chars) after := by
  obtain ⟨units, read, joined⟩ := reads
  have notUnit : letter ≠ 'u' := by
    rintro rfl
    cases escapes
  refine ⟨.char c :: units, ?_, by simp [joinUnits?, joined]⟩
  simp [readUnits?, escapes, read]

theorem joinUnits?_control {code : Nat} (isControl : code < 0x20) (units : List TextUnit) :
    joinUnits? (.unit code :: units) = (joinUnits? units).map (Char.ofNat code :: ·) := by
  have notHigh : isHighHalf code = false := by
    simp only [isHighHalf, Bool.and_eq_false_iff, decide_eq_false_iff_not]
    omega
  have notLow : isLowHalf code = false := by
    simp only [isLowHalf, Bool.and_eq_false_iff, decide_eq_false_iff_not]
    omega
  cases units with
  | nil => simp [joinUnits?, notHigh, notLow]
  | cons next units => cases next <;> simp [joinUnits?, notHigh, notLow]

theorem hexValue?_hexDigit : ∀ n < 16, hexValue? (hexDigit n) = some n := by
  decide

theorem control {c : Char} (isControl : c.toNat < 0x20)
    (reads : ReadsText fuel written chars after) :
    ReadsText (fuel + 1)
      ('\\' :: 'u' :: '0' :: '0' :: hexDigit (c.toNat / 16) :: hexDigit (c.toNat % 16) :: written)
      (c :: chars) after := by
  obtain ⟨units, read, joined⟩ := reads
  have zero : hexValue? '0' = some 0 := rfl
  have high := hexValue?_hexDigit (c.toNat / 16) (by omega)
  have low := hexValue?_hexDigit (c.toNat % 16) (by omega)
  have isCode : c.toNat / 16 * 16 + c.toNat % 16 = c.toNat := by omega
  refine ⟨.unit c.toNat :: units, ?_, ?_⟩
  · simp [readUnits?, readUnit?, zero, high, low, read, isCode]
  · rw [joinUnits?_control isControl, joined, Char.ofNat_toNat]
    rfl

theorem escapeChar (c : Char) (reads : ReadsText fuel written chars after) :
    ReadsText (fuel + 1) (escapeChar c ++ written) (c :: chars) after := by
  have ofCode : ∀ code, c.toNat = code → c = Char.ofNat code := by
    rintro _ rfl
    exact (Char.ofNat_toNat c).symm
  unfold Json.escapeChar
  split
  next isQuote =>
    subst isQuote
    exact reads.letter rfl
  split
  next isEscape =>
    subst isEscape
    exact reads.letter rfl
  split
  next notQuote notEscape visible => exact reads.plain visible notQuote notEscape
  split
  next isNewline => exact reads.letter (isNewline ▸ rfl)
  split
  next isTab => exact reads.letter (isTab ▸ rfl)
  split
  next isReturn => exact reads.letter (isReturn ▸ rfl)
  split
  next isBackspace => exact reads.letter (ofCode 8 isBackspace ▸ rfl)
  split
  next isFormFeed => exact reads.letter (ofCode 12 isFormFeed ▸ rfl)
  next isControl _ _ _ _ _ => exact reads.control (Nat.not_le.mp isControl)

theorem flatMap (text after : List Char) (enough : text.length < fuel) :
    ReadsText fuel (text.flatMap Json.escapeChar ++ '"' :: after) text after := by
  induction text generalizing fuel with
  | nil =>
    obtain ⟨fuel, rfl⟩ := Nat.exists_eq_add_of_lt enough
    exact ⟨[], rfl, rfl⟩
  | cons c text ih =>
    obtain ⟨fuel, rfl⟩ : ∃ less, fuel = less + 1 := ⟨fuel - 1, by omega⟩
    rw [flatMap_cons, append_assoc]
    exact (ih (Nat.lt_of_succ_lt_succ enough)).escapeChar c

end ReadsText

theorem length_le_flatMap_escapeChar (text : List Char) :
    text.length ≤ (text.flatMap escapeChar).length := by
  induction text with
  | nil => exact Nat.le_refl 0
  | cons c text ih =>
    have some : 1 ≤ (escapeChar c).length := by
      unfold escapeChar
      repeat' split
      all_goals simp
    simp only [flatMap_cons, length_append, length_cons]
    omega

theorem quote_append (text : String) (rest : List Char) :
    quote text ++ rest = '"' :: (text.toList.flatMap escapeChar ++ '"' :: rest) := by
  simp [quote]

theorem readText?_quote (text : String) (rest : List Char) :
    readText? (text.toList.flatMap escapeChar ++ '"' :: rest) = some (some text, rest) := by
  have enough : text.toList.length <
      (text.toList.flatMap escapeChar ++ '"' :: rest).length + 1 := by
    have fits := length_le_flatMap_escapeChar text.toList
    simp only [length_append]
    omega
  obtain ⟨units, read, joined⟩ := ReadsText.flatMap text.toList rest enough
  rw [readText?, read]
  simp [joined]

end Texts

/-! ## Numbers -/

def IsNumeral (digits : List Char) : Prop :=
  digits = ['0'] ∨ ∃ c rest, digits = c :: rest ∧ c ≠ '0' ∧ ∀ d ∈ digits, d.isDigit = true

/-- What may follow a value: a blank, a separator, an end, or nothing.  No number goes on there. -/
def Delimits (rest : List Char) : Prop :=
  ∀ c more, rest = c :: more → c ∈ [' ', '\n', '\t', '\r', ',', ']', '\x7d']

section Numbers

variable {digits rest : List Char}

theorem isNumeral_toDigits (n : Nat) : IsNumeral (Nat.toDigits 10 n) := by
  have small : ∀ n < 10, n ≠ 0 → Nat.digitChar n ≠ '0' := by decide
  have front : n ≠ 0 → ∃ c rest, Nat.toDigits 10 n = c :: rest ∧ c ≠ '0' := by
    induction n using Nat.strongRecOn with
    | ind n ih =>
      intro positive
      by_cases few : n < 10
      · rw [Nat.toDigits_of_lt_base few]
        exact ⟨_, [], rfl, small n few positive⟩
      · obtain ⟨c, rest, isFront, other⟩ := ih (n / 10) (by omega) (by omega)
        rw [Nat.toDigits_of_base_le (by decide) (Nat.le_of_not_lt few), isFront]
        exact ⟨c, _, rfl, other⟩
  by_cases zero : n = 0
  · exact .inl (zero ▸ rfl)
  · obtain ⟨c, rest, isFront, other⟩ := front zero
    exact .inr ⟨c, rest, isFront, other,
      fun d => Nat.isDigit_of_mem_toDigits (by decide) (by decide)⟩

theorem IsNumeral.exists_digit (numeral : IsNumeral digits) :
    ∃ c more, digits = c :: more ∧ c.isDigit = true := by
  rcases numeral with rfl | ⟨c, more, rfl, _, each⟩
  · exact ⟨'0', [], rfl, rfl⟩
  · exact ⟨c, more, rfl, each c mem_cons_self⟩

theorem Delimits.reads (delimits : Delimits rest) :
    rest.takeWhile Char.isDigit = [] ∧ rest.dropWhile Char.isDigit = rest ∧
      readFraction? rest = some ([], rest) ∧ readPower? rest = some ([], rest) := by
  cases rest with
  | nil => exact ⟨rfl, rfl, rfl, rfl⟩
  | cons c more =>
    have isMark := delimits c more rfl
    simp only [mem_cons, not_mem_nil, or_false] at isMark
    rcases isMark with rfl | rfl | rfl | rfl | rfl | rfl | rfl <;> exact ⟨rfl, rfl, rfl, rfl⟩

theorem readWhole?_append (numeral : IsNumeral digits) (delimits : Delimits rest) :
    readWhole? (digits ++ rest) = some (digits, rest) := by
  obtain ⟨stops, stays, -⟩ := delimits.reads
  rcases numeral with rfl | ⟨c, more, rfl, other, each⟩
  · cases rest with
    | nil => rfl
    | cons c more =>
      have notDigit : ¬c.isDigit = true := fun digit => by simp [digit] at stops
      simp [readWhole?, notDigit]
  · have taken : ((c :: more) ++ rest).takeWhile Char.isDigit = c :: more := by
      rw [takeWhile_append_of_pos each, stops, append_nil]
    have left : ((c :: more) ++ rest).dropWhile Char.isDigit = rest := by
      rw [dropWhile_append_of_pos each, stays]
    rw [cons_append] at taken left ⊢
    simp [readWhole?, readDigits?, other, taken, left]

theorem readNumber?_append (numeral : IsNumeral digits) (delimits : Delimits rest) :
    readNumber? (digits ++ rest) = some (.number (String.ofList digits), rest) := by
  obtain ⟨-, -, fraction, power⟩ := delimits.reads
  have whole := readWhole?_append numeral delimits
  obtain ⟨c, more, rfl, digit⟩ := numeral.exists_digit
  have unsigned : c ≠ '-' := by
    rintro rfl
    cases digit
  rw [cons_append] at whole ⊢
  simp [readNumber?, unsigned, whole, fraction, power]

end Numbers

/-! ## Items and members -/

variable {c : Char}

@[simp]
theorem skipBlanks_cons (visible : isJsonBlank c = false) (rest : List Char) :
    skipBlanks (c :: rest) = c :: rest :=
  dropWhile_cons_of_neg (by simp [visible])

theorem skipBlanks_append {blanks : List Char} (blank : ∀ c ∈ blanks, isJsonBlank c = true)
    (rest : List Char) : skipBlanks (blanks ++ rest) = skipBlanks rest :=
  dropWhile_append_of_pos blank

def commaed : List (List Char) → List Char
  | [] => []
  | [last] => last
  | text :: rest => text ++ ',' :: commaed rest

theorem commaed_map_cons {α : Type} (text : α → List Char) (a : α) {rest : List α}
    (more : rest ≠ []) :
    commaed ((a :: rest).map text) = text a ++ ',' :: commaed (rest.map text) := by
  rw [map_cons, commaed]
  exact mt map_eq_nil_iff.mp more

theorem exists_commaed_eq {α : Type} (text : α → List Char) (a : α) (rest : List α) :
    ∃ more, commaed ((a :: rest).map text) = text a ++ more := by
  cases rest with
  | nil => exact ⟨[], (append_nil _).symm⟩
  | cons next rest => exact ⟨_, rfl⟩

theorem length_le_commaed {α : Type} (text : α → List Char) {a : α} {values : List α}
    (member : a ∈ values) : (text a).length ≤ (commaed (values.map text)).length := by
  induction values with
  | nil => cases member
  | cons first rest ih =>
    by_cases more : rest = []
    · subst more
      obtain rfl := mem_singleton.mp member
      exact Nat.le_refl _
    · rw [commaed_map_cons text first more, length_append, length_cons]
      rcases mem_cons.mp member with rfl | later
      · omega
      · have fits := ih later
        omega

/-- The members of an object whose names are texts. -/
def named (members : List (String × Json)) : List (Option String × Json) :=
  members.map fun member => (some member.1, member.2)

theorem named_cons (member : String × Json) (members : List (String × Json)) :
    named (member :: members) = (some member.1, member.2) :: named members :=
  rfl

def memberText (lead : List Char) (text : Json → List Char) (member : String × Json) : List Char :=
  lead ++ quote member.1 ++ ':' :: text member.2

section Parts

variable {value? : List Char → Option (Json × List Char)} {text : Json → List Char} {fuel : Nat}
  {lead trail rest : List Char}

/-- The characters are read as the value, up to where the value ends. -/
def IsRead (value? : List Char → Option (Json × List Char)) (chars : List Char) (value : Json) :
    Prop :=
  ∀ rest, Delimits rest → value? (chars ++ rest) = some (value, rest)

theorem delimits_cons (c : Char) (isMark : c ∈ [' ', '\n', '\t', '\r', ',', ']', '\x7d'])
    (rest : List Char) : Delimits (c :: rest) := by
  intro first more same
  cases same
  exact isMark

theorem delimits_append (blank : ∀ c ∈ trail, isJsonBlank c = true) (delimits : Delimits rest) :
    Delimits (trail ++ rest) := by
  cases trail with
  | nil => exact delimits
  | cons c more =>
    have isBlank := blank c mem_cons_self
    refine delimits_cons c ?_ _
    simp only [isJsonBlank, Bool.or_eq_true, beq_iff_eq] at isBlank
    rcases isBlank with ((rfl | rfl) | rfl) | rfl <;> simp

theorem skipBlanks_memberText (leadBlank : ∀ c ∈ lead, isJsonBlank c = true)
    (member : String × Json) (after : List Char) :
    skipBlanks (memberText lead text member ++ after) =
      '"' :: (member.1.toList.flatMap escapeChar ++ '"' :: ':' :: (text member.2 ++ after)) := by
  rw [memberText, append_assoc, append_assoc, skipBlanks_append leadBlank, quote_append]
  exact skipBlanks_cons rfl _

section Trail

variable (blank : ∀ c ∈ trail, isJsonBlank c = true)

include blank

theorem readItems?_commaed
    {items : List Json} (each : ∀ item ∈ items, IsRead value? (text item) item)
    (nonempty : items ≠ []) (enough : (commaed (items.map text)).length < fuel) :
    readItems? value? fuel (commaed (items.map text) ++ (trail ++ ']' :: rest)) =
      some (items, rest) := by
  induction items generalizing fuel with
  | nil => exact absurd rfl nonempty
  | cons item items ih =>
    obtain ⟨fuel, rfl⟩ : ∃ less, fuel = less + 1 := ⟨fuel - 1, by omega⟩
    obtain ⟨isRead, others⟩ := forall_mem_cons.mp each
    by_cases more : items = []
    · subst more
      have last := isRead _ (delimits_append blank (delimits_cons ']' (by decide) rest))
      simp [readItems?, commaed, last, skipBlanks_append blank, isJsonBlank]
    · rw [commaed_map_cons _ _ more, length_append, length_cons] at enough
      have fits : (commaed (items.map text)).length < fuel := by omega
      rw [commaed_map_cons _ _ more, append_assoc, cons_append, readItems?,
        isRead _ (delimits_cons ',' (by decide) _)]
      simp [isJsonBlank, ih others more fits]

theorem readMembers?_commaed (leadBlank : ∀ c ∈ lead, isJsonBlank c = true)
    {members : List (String × Json)}
    (each : ∀ member ∈ members, IsRead value? (text member.2) member.2) (nonempty : members ≠ [])
    (enough : (commaed (members.map (memberText lead text))).length < fuel) :
    readMembers? value? fuel
      (commaed (members.map (memberText lead text)) ++ (trail ++ '\x7d' :: rest)) =
        some (named members, rest) := by
  induction members generalizing fuel with
  | nil => exact absurd rfl nonempty
  | cons member members ih =>
    obtain ⟨fuel, rfl⟩ : ∃ less, fuel = less + 1 := ⟨fuel - 1, by omega⟩
    obtain ⟨isRead, others⟩ := forall_mem_cons.mp each
    by_cases more : members = []
    · subst more
      have last := isRead _ (delimits_append blank (delimits_cons '\x7d' (by decide) rest))
      rw [map_singleton, commaed, readMembers?, skipBlanks_memberText leadBlank]
      simp [isJsonBlank, readText?_quote, last, skipBlanks_append blank, named]
    · rw [commaed_map_cons _ _ more, length_append, length_cons] at enough
      have fits : (commaed (members.map (memberText lead text))).length < fuel := by omega
      rw [commaed_map_cons _ _ more, append_assoc, cons_append, readMembers?,
        skipBlanks_memberText leadBlank]
      simp [isJsonBlank, readText?_quote, isRead _ (delimits_cons ',' (by decide) _),
        ih others more fits, named_cons]

end Trail

end Parts

/-! ## Values -/

/-- The characters are a text of the value: blanks stand before values, names and ends. -/
inductive Written : Json → List Char → Prop
  | blank {value : Json} {c : Char} {chars : List Char} (isBlank : isJsonBlank c = true)
      (written : Written value chars) : Written value (c :: chars)
  | null : Written .null "null".toList
  | boolean (value : Bool) : Written (.boolean value) (compactChars (.boolean value))
  | number {digits : List Char} (numeral : IsNumeral digits) :
      Written (.number (String.ofList digits)) digits
  | string (value : String) : Written (.string value) (quote value)
  | nothing : Written (.array []) ['[', ']']
  | array {items : List Json} {text : Json → List Char} {trail : List Char} (nonempty : items ≠ [])
      (each : ∀ item ∈ items, Written item (text item))
      (blank : ∀ c ∈ trail, isJsonBlank c = true) :
      Written (.array items) ('[' :: (commaed (items.map text) ++ (trail ++ [']'])))
  | empty : Written (.object []) ['\x7b', '\x7d']
  | object {members : List (String × Json)} {text : Json → List Char} {lead trail : List Char}
      (nonempty : members ≠ []) (each : ∀ member ∈ members, Written member.2 (text member.2))
      (leadBlank : ∀ c ∈ lead, isJsonBlank c = true) (blank : ∀ c ∈ trail, isJsonBlank c = true) :
      Written (.object (named members))
        ('\x7b' :: (commaed (members.map (memberText lead text)) ++ (trail ++ ['\x7d'])))

theorem isJsonBlank_eq_false_of_isDigit (digit : c.isDigit = true) : isJsonBlank c = false := by
  simp only [isJsonBlank, Bool.or_eq_false_iff, beq_eq_false_iff_ne]
  refine ⟨⟨⟨?_, ?_⟩, ?_⟩, ?_⟩ <;> rintro rfl <;> cases digit

theorem skipBlanks_blank (isBlank : isJsonBlank c = true) (chars : List Char) :
    skipBlanks (c :: chars) = skipBlanks chars :=
  dropWhile_cons_of_pos isBlank

namespace Written

variable {value : Json} {chars : List Char} {depth : Nat}

theorem exists_first (written : Written value chars) (rest : List Char) :
    ∃ first more, skipBlanks (chars ++ rest) = first :: more ∧ first ≠ ']' := by
  induction written with
  | blank isBlank _ ih =>
    rw [cons_append, skipBlanks_blank isBlank]
    exact ih
  | number numeral =>
    obtain ⟨c, more, rfl, digit⟩ := numeral.exists_digit
    refine ⟨c, more ++ rest, skipBlanks_cons (isJsonBlank_eq_false_of_isDigit digit) _, ?_⟩
    rintro rfl
    cases digit
  | boolean value => cases value <;> exact ⟨_, _, rfl, by decide⟩
  | _ => exact ⟨_, _, rfl, by decide⟩

theorem readValue?_array {chars rest : List Char} {items : List Json}
    (opens : ∀ more, skipBlanks chars ≠ ']' :: more)
    (reads : readItems? (readValue? depth) (chars.length + 1) chars = some (items, rest)) :
    readValue? (depth + 1) ('[' :: chars) = some (.array items, rest) := by
  unfold readValue?
  simp [isJsonBlank, reads]

theorem readValue?_object {rest : List Char} {members : List (Option String × Json)}
    (opens : ∀ more, skipBlanks chars ≠ '\x7d' :: more)
    (reads : readMembers? (readValue? depth) (chars.length + 1) chars = some (members, rest)) :
    readValue? (depth + 1) ('\x7b' :: chars) = some (.object members, rest) := by
  unfold readValue?
  simp [isJsonBlank, reads]

theorem readValue?_number {digits rest : List Char} (numeral : IsNumeral digits)
    (delimits : Delimits rest) :
    readValue? (depth + 1) (digits ++ rest) = some (.number (String.ofList digits), rest) := by
  have read := readNumber?_append numeral delimits
  obtain ⟨c, more, rfl, digit⟩ := numeral.exists_digit
  rw [cons_append] at read ⊢
  unfold readValue?
  rw [skipBlanks_cons (isJsonBlank_eq_false_of_isDigit digit)]
  split
  case h_7 => exact read
  all_goals
    rename_i same
    cases same
    cases digit

theorem isRead (written : Written value chars) (enough : chars.length ≤ depth) :
    IsRead (readValue? depth) chars value := by
  induction written generalizing depth with
  | @blank value c chars isBlank _ ih =>
    intro rest delimits
    have read := ih (Nat.le_of_succ_le enough) rest delimits
    cases depth with
    | zero => cases read
    | succ depth =>
      unfold readValue? at read ⊢
      rwa [cons_append, skipBlanks_blank isBlank]
  | null =>
    obtain ⟨depth, rfl⟩ := Nat.exists_eq_add_of_le' enough
    exact fun rest _ => rfl
  | boolean value =>
    cases value <;>
      · obtain ⟨depth, rfl⟩ := Nat.exists_eq_add_of_le' enough
        exact fun rest _ => rfl
  | number numeral =>
    obtain ⟨c, more, rfl, _⟩ := numeral.exists_digit
    obtain ⟨depth, rfl⟩ := Nat.exists_eq_add_of_le' (Nat.one_le_of_lt enough)
    exact fun rest delimits => readValue?_number numeral delimits
  | string value =>
    obtain ⟨depth, rfl⟩ := Nat.exists_eq_add_of_le' (Nat.one_le_of_lt enough)
    intro rest _
    rw [quote_append]
    unfold readValue?
    simp [isJsonBlank, readText?_quote]
  | nothing =>
    obtain ⟨depth, rfl⟩ := Nat.exists_eq_add_of_le' enough
    exact fun rest _ => rfl
  | empty =>
    obtain ⟨depth, rfl⟩ := Nat.exists_eq_add_of_le' enough
    exact fun rest _ => rfl
  | @array items text trail nonempty each blank ih =>
    simp only [length_cons, length_append] at enough
    obtain ⟨depth, rfl⟩ : ∃ less, depth = less + 1 := ⟨depth - 1, by omega⟩
    intro rest _
    simp only [cons_append, append_assoc, nil_append]
    refine readValue?_array (fun more closes => ?_)
      (readItems?_commaed blank (fun item member => ?_) nonempty ?_)
    · obtain ⟨item, others, rfl⟩ := exists_cons_of_ne_nil nonempty
      obtain ⟨after, whole⟩ := exists_commaed_eq text item others
      obtain ⟨first, _, isFirst, notClosing⟩ :=
        (each item mem_cons_self).exists_first (after ++ (trail ++ ']' :: rest))
      rw [whole, append_assoc, isFirst] at closes
      exact notClosing (List.cons.inj closes).1
    · have fits := length_le_commaed text member
      exact ih item member (by omega)
    · simp only [length_append]
      omega
  | @object members text lead trail nonempty each leadBlank blank ih =>
    simp only [length_cons, length_append] at enough
    obtain ⟨depth, rfl⟩ : ∃ less, depth = less + 1 := ⟨depth - 1, by omega⟩
    intro rest _
    simp only [cons_append, append_assoc, nil_append]
    refine readValue?_object (fun more closes => ?_)
      (readMembers?_commaed blank leadBlank (fun member inside => ?_) nonempty ?_)
    · obtain ⟨member, others, rfl⟩ := exists_cons_of_ne_nil nonempty
      obtain ⟨after, whole⟩ := exists_commaed_eq (memberText lead text) member others
      rw [whole, append_assoc, skipBlanks_memberText leadBlank] at closes
      cases closes
    · have fits := length_le_commaed (memberText lead text) inside
      simp only [memberText, length_append, length_cons] at fits
      exact ih member inside (by omega)
    · simp only [length_append]
      omega

end Written

theorem Written.parse? {value : Json} {text : String} (written : Written value text.toList) :
    Json.parse? text = some value := by
  have read := written.isRead (Nat.le_succ _) [] fun _ _ none => by cases none
  rw [append_nil] at read
  rw [Json.parse?, read]
  rfl

/-- The value has numbers without signs, points and powers only, and all its texts and names are
texts. -/
inductive Textual : Json → Prop
  | null : Textual .null
  | boolean (value : Bool) : Textual (.boolean value)
  | number {digits : List Char} (numeral : IsNumeral digits) :
      Textual (.number (String.ofList digits))
  | string (value : String) : Textual (.string value)
  | array {items : List Json} (each : ∀ item ∈ items, Textual item) : Textual (.array items)
  | object {members : List (String × Json)} (each : ∀ member ∈ members, Textual member.2) :
      Textual (.object (named members))

/-! ## Layouts -/

theorem compactItems_eq (items : List Json) :
    compactItems items = commaed (items.map compactChars) := by
  induction items with
  | nil => rfl
  | cons item items ih =>
    cases items with
    | nil => rfl
    | cons next items => simp [compactItems, commaed, ih]

theorem compactMembers_eq (members : List (String × Json)) :
    compactMembers (named members) = commaed (members.map (memberText [] compactChars)) := by
  induction members with
  | nil => rfl
  | cons member members ih =>
    by_cases more : members = []
    · subst more
      rfl
    · rw [commaed_map_cons _ _ more, ← ih, named_cons, compactMembers]
      · simp [memberText]
        rfl
      · exact fun none => more (map_eq_nil_iff.mp none)

theorem indentedItems_eq (level : Nat) (items : List Json) :
    indentedItems level items =
      commaed (items.map fun item => lineStart level ++ indentedChars level item) := by
  induction items with
  | nil => rfl
  | cons item items ih =>
    cases items with
    | nil => rfl
    | cons next items => simp [indentedItems, commaed, ih]

theorem indentedMembers_eq (level : Nat) (members : List (String × Json)) :
    indentedMembers level (named members) =
      commaed (members.map (memberText (lineStart level) fun value =>
        ' ' :: indentedChars level value)) := by
  induction members with
  | nil => rfl
  | cons member members ih =>
    by_cases more : members = []
    · subst more
      rfl
    · rw [commaed_map_cons _ _ more, ← ih, named_cons, indentedMembers]
      · simp [memberText]
        rfl
      · exact fun none => more (map_eq_nil_iff.mp none)

theorem isJsonBlank_of_mem_lineStart {level : Nat} (member : c ∈ lineStart level) :
    isJsonBlank c = true := by
  rcases mem_cons.mp member with rfl | isSpace
  · rfl
  · rw [eq_of_mem_replicate isSpace]
    rfl

theorem Written.blanks {value : Json} {lead chars : List Char} (written : Written value chars)
    (blank : ∀ c ∈ lead, isJsonBlank c = true) : Written value (lead ++ chars) := by
  induction lead with
  | nil => exact written
  | cons c lead ih =>
    obtain ⟨isBlank, others⟩ := forall_mem_cons.mp blank
    exact .blank isBlank (ih others)

namespace Textual

variable {value : Json} (textual : Textual value)

include textual

theorem written_compact : Written value (compactChars value) := by
  induction textual with
  | null => exact .null
  | boolean value => exact .boolean value
  | number numeral =>
    rw [compactChars, String.toList_ofList]
    exact .number numeral
  | string value => exact .string value
  | @array items each ih =>
    by_cases nonempty : items = []
    · subst nonempty
      exact .nothing
    · rw [compactChars, compactItems_eq]
      exact .array nonempty ih (forall_mem_nil _)
  | @object members each ih =>
    by_cases nonempty : members = []
    · subst nonempty
      exact .empty
    · rw [compactChars, compactMembers_eq]
      exact .object nonempty ih (forall_mem_nil _) (forall_mem_nil _)

theorem written_indented (level : Nat) : Written value (indentedChars level value) := by
  have scalar := textual.written_compact
  induction textual generalizing level with
  | @array items each ih =>
    by_cases nonempty : items = []
    · subst nonempty
      exact .nothing
    · obtain ⟨item, others, rfl⟩ := exists_cons_of_ne_nil nonempty
      rw [indentedChars, indentedItems_eq, cons_append, cons_append, append_assoc]
      refine .array nonempty (fun item member => ?_) fun _ => isJsonBlank_of_mem_lineStart
      exact (ih item member (level + 1) (each item member).written_compact).blanks fun _ =>
        isJsonBlank_of_mem_lineStart
  | @object members each ih =>
    by_cases nonempty : members = []
    · subst nonempty
      exact .empty
    · obtain ⟨member, others, rfl⟩ := exists_cons_of_ne_nil nonempty
      rw [named_cons, indentedChars, ← named_cons, indentedMembers_eq, cons_append,
        cons_append, append_assoc]
      refine .object nonempty (fun member inside => ?_) (fun _ => isJsonBlank_of_mem_lineStart)
        fun _ => isJsonBlank_of_mem_lineStart
      exact .blank rfl (ih member inside (level + 1) (each member inside).written_compact)
  | _ => exact scalar

/-- The compact text of a value is read as that value. -/
theorem parse?_compact : parse? value.compact = some value := by
  refine Written.parse? ?_
  rw [compact, String.toList_ofList]
  exact textual.written_compact

theorem parse?_indented : parse? value.indented = some value := by
  refine Written.parse? ?_
  rw [indented, String.toList_ofList]
  exact textual.written_indented 0

end Textual

/-! ## Encoded values -/

/-- What is encoded has no numbers, and it is decoded as it was. -/
structure Returns {α : Type} (encode : α → Json) (decode : Json → Option α) : Prop where
  textual (a : α) : Textual (encode a)
  decoded (a : α) : decode (encode a) = some a

theorem mapM_map {α β γ : Type} {f : β → Option γ} {g : α → β} {h : α → γ} {items : List α}
    (each : ∀ a ∈ items, f (g a) = some (h a)) : (items.map g).mapM f = some (items.map h) := by
  induction items with
  | nil => rfl
  | cons a items ih =>
    obtain ⟨here, others⟩ := forall_mem_cons.mp each
    simp [here, ih others]

variable {members : List (String × Json)}

theorem valuesOf_named (name : String) (distinct : (members.map Prod.fst).Nodup) :
    valuesOf name (named members) = (members.lookup name).toList := by
  induction members with
  | nil => rfl
  | cons member members ih =>
    obtain ⟨first, value⟩ := member
    obtain ⟨absent, others⟩ := nodup_cons.mp distinct
    have later := ih others
    rw [valuesOf] at later ⊢
    by_cases here : first = name
    · subst here
      rw [Table.lookup_eq_none absent] at later
      simp [named_cons, later]
    · have other : (name == first) = false := beq_eq_false_iff_ne.mpr (Ne.symm here)
      simp [named_cons, later, here, lookup_cons, other]

theorem soleValue_named (name : String) (distinct : (members.map Prod.fst).Nodup) :
    soleValue name (named members) = some (members.lookup name) := by
  rw [soleValue, valuesOf_named name distinct]
  cases members.lookup name <;> rfl

theorem decodeFields_ofMembers (names : List String) (distinct : (members.map Prod.fst).Nodup) :
    decodeFields names (.ofMembers members) = some (names.map fun name => members.lookup name) := by
  have someNames : (named members).all (fun member => member.1.isSome) = true := by
    simp [named]
  have read : (names.map id).mapM (fun name => soleValue name (named members)) =
      some (names.map fun name => members.lookup name) :=
    mapM_map fun name _ => soleValue_named name distinct
  rw [map_id] at read
  change decodeFields names (.object (named members)) = _
  simp [decodeFields, someNames, read]

namespace Returns

variable {α : Type} {encode : α → Json} {decode : Json → Option α}

theorem text : Returns .string decodeText :=
  ⟨.string, fun _ => rfl⟩

theorem texts : Returns encodeTexts (decodeList decodeText) where
  textual items := .array (by simp [Textual.string])
  decoded items := by
    have read := mapM_map fun item (_ : item ∈ items) => text.decoded item
    rwa [map_id'] at read

theorem option (returns : Returns encode decode) (notNull : ∀ a, encode a ≠ .null) :
    Returns (ofOption encode) (decodeOption decode) where
  textual value := by
    cases value with
    | none => exact .null
    | some a => exact returns.textual a
  decoded value := by
    cases value with
    | none => rfl
    | some a =>
      rw [ofOption, decodeOption, returns.decoded a]
      · rfl
      · exact notNull a

theorem table (returns : Returns encode decode) :
    Returns (encodeTable encode) (decodeTable decode) where
  textual t := by
    refine .object fun member inside => ?_
    obtain ⟨entry, _, rfl⟩ := mem_map.mp inside
    exact returns.textual entry.2
  decoded t := by
    simp only [encodeTable, ofMembers, map_map, decodeTable]
    rw [mapM_map (h := id)]
    · rw [map_id]
      exact congrArg some t.extend_empty
    · intro entry _
      change (do
        let value ← decode (encode entry.2)
        return (entry.1, value)) = some entry
      rw [returns.decoded]
      rfl

end Returns

theorem allMembersHeld_named {room : Nat} (each : ∀ member ∈ members, isHeld room member.2 = true) :
    allMembersHeld room (named members) = true := by
  induction members with
  | nil => rfl
  | cons member members ih =>
    obtain ⟨here, others⟩ := forall_mem_cons.mp each
    simp [named_cons, allMembersHeld, here, ih others]

end Json

end AutomationScript
