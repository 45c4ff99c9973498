import AutomationScript.Diagnostic
import AutomationScript.Text.Blank

/-!
# Scanning

A source text is cut into pieces, one after the other: gaps (blanks and comments), line breaks,
tokens, and stretches that form no token.  `cut` takes the first piece off a text, and `pieces`
cuts a whole text.  What is taken and what is left make up the text again, and every cut takes
something.
-/

namespace AutomationScript

/-- What a stretch of source is. -/
inductive Piece where
  | gap
  | lineBreak
  | token (token : Token)
  | fault (error : LexicalError)
deriving DecidableEq, Repr

/-- The first piece of a text, its characters, and the characters after it. -/
structure Cut where
  piece : Piece
  taken : List Char
  rest : List Char

namespace Scanner

def isLineBreak (c : Char) : Bool :=
  c == '\n' || c == '\r'

/-- A space or a tab. -/
def isSpace (c : Char) : Bool :=
  c == ' ' || c == '\t'

def isWordStart (c : Char) : Bool :=
  c.isAlpha || c == '_'

/-- Splits a text before the first character that does not belong to a run. -/
def splitRun (belongs : Char → Bool) (chars : List Char) : List Char × List Char :=
  (chars.takeWhile belongs, chars.dropWhile belongs)

/-- Splits a text after the word it starts with.  A hyphen belongs to the word when a letter
follows it. -/
def splitWord : List Char → List Char × List Char
  | [] => ([], [])
  | c :: rest =>
    if c.isAlphanum || c == '_' || (c == '-' && (rest.head?.map Char.isAlpha).getD false) then
      let (word, after) := splitWord rest
      (c :: word, after)
    else
      ([], c :: rest)

/-- Splits a text at the first closing brace, or pair of closing braces if `double`. -/
def splitAtClose (double : Bool) : List Char → Option (List Char × List Char)
  | [] => none
  | c :: rest =>
    if c == '\x7d' && (!double || rest.head? == some '\x7d') then
      some ([], if double then rest.tail else rest)
    else
      (splitAtClose double rest).map fun (body, after) => (c :: body, after)

private def token (t : Token) (taken rest : List Char) : Cut :=
  ⟨.token t, taken, rest⟩

/-- A text in braces, from after the first one. -/
def cutEval (rest : List Char) : Cut :=
  let double := rest.head? == some '\x7b'
  let opening := if double then ['\x7b', '\x7b'] else ['\x7b']
  let closing := if double then ['\x7d', '\x7d'] else ['\x7d']
  match splitAtClose double (if double then rest.tail else rest) with
  | some (body, after) =>
    token (.eval (String.ofList (trimBlank body))) (opening ++ body ++ closing) after
  | none => ⟨.fault .unterminatedEval, '\x7b' :: rest, []⟩

/-- A text in quotes, from after the first one.  It ends at the same quote on the same line. -/
def cutString (quote : Char) (rest : List Char) : Cut :=
  let (body, after) := splitRun (fun c => c != quote && c != '\n') rest
  match after with
  | c :: after =>
    if c = quote then
      token (.string (String.ofList body)) (quote :: body ++ [quote]) after
    else
      ⟨.fault .unterminatedString, quote :: body, c :: after⟩
  | [] => ⟨.fault .unterminatedString, quote :: body, []⟩

/-- A numeral: digits, and a point if digits follow it too. -/
def cutNumber (chars : List Char) : Cut :=
  let (whole, after) := splitRun Char.isDigit chars
  match after with
  | '.' :: digit :: more =>
    if digit.isDigit then
      let (fraction, after) := splitRun Char.isDigit (digit :: more)
      token (.number (Number.ofNumeral false whole fraction 0)) (whole ++ '.' :: fraction) after
    else
      token (.number (Number.ofNumeral false whole [] 0)) whole after
  | _ => token (.number (Number.ofNumeral false whole [] 0)) whole after

/-- A comment, from its first mark to the end of the line. -/
def cutComment (chars : List Char) : Cut :=
  let (comment, after) := splitRun (· != '\n') chars
  ⟨.gap, comment, after⟩

/-- A token that is longer by one when the next character is an equals sign. -/
def cutWithEquals (c : Char) (rest : List Char) (long : Token) (short : Piece) : Cut :=
  match rest with
  | '=' :: after => token long [c, '='] after
  | _ => ⟨short, [c], rest⟩

/-- The first piece of the text `c :: rest`. -/
def cut (c : Char) (rest : List Char) : Cut :=
  if isSpace c then
    let (spaces, after) := splitRun isSpace rest
    ⟨.gap, c :: spaces, after⟩
  else if (c == '/' || c == '-') && rest.head? == some c then
    cutComment (c :: rest)
  else if isLineBreak c then
    let (breaks, after) := splitRun isLineBreak rest
    ⟨.lineBreak, c :: breaks, after⟩
  else if c.isDigit then
    cutNumber (c :: rest)
  else if isWordStart c then
    let (word, after) := splitWord (c :: rest)
    token (Token.ofWord word) word after
  else
    match c with
    | ';' => token .semicolon [c] rest
    | '(' => token .leftParen [c] rest
    | ')' => token .rightParen [c] rest
    | '[' => token .leftBracket [c] rest
    | ']' => token .rightBracket [c] rest
    | ',' => token .comma [c] rest
    | '*' => token .star [c] rest
    | '+' => token .plus [c] rest
    | '-' => token .minus [c] rest
    | '/' => token .slash [c] rest
    | '.' =>
      match rest with
      | '.' :: '.' :: after => token .ellipsis ['.', '.', '.'] after
      | _ => token .dot [c] rest
    | '<' => cutWithEquals c rest .le (.token .lt)
    | '>' => cutWithEquals c rest .ge (.token .gt)
    | '=' => cutWithEquals c rest .eqEq (.token .eq)
    | '!' => cutWithEquals c rest .ne (.fault .loneBang)
    | '\x7b' => cutEval rest
    | '"' => cutString c rest
    | '\'' => cutString c rest
    | _ => ⟨.fault (.unexpectedCharacter c), [c], rest⟩

theorem length_dropWhile_le (belongs : Char → Bool) (chars : List Char) :
    (chars.dropWhile belongs).length ≤ chars.length := by
  induction chars with
  | nil => simp
  | cons c rest ih =>
    rw [List.dropWhile_cons]
    split
    · simp only [List.length_cons]
      omega
    · exact Nat.le_refl _

theorem length_splitWord_le (chars : List Char) :
    (splitWord chars).2.length ≤ chars.length := by
  induction chars with
  | nil => simp [splitWord]
  | cons c rest ih =>
    unfold splitWord
    split
    · simp only [List.length_cons]
      omega
    · exact Nat.le_refl _

theorem length_splitAtClose_le {double : Bool} {chars body after : List Char}
    (found : splitAtClose double chars = some (body, after)) :
    after.length < chars.length := by
  induction chars generalizing body after with
  | nil => simp [splitAtClose] at found
  | cons c rest ih =>
    unfold splitAtClose at found
    split at found
    · simp only [Option.some.injEq, Prod.mk.injEq] at found
      rw [← found.2]
      split
      · simp only [List.length_tail, List.length_cons]
        omega
      · simp
    · rw [Option.map_eq_some_iff] at found
      obtain ⟨⟨inner, left⟩, innerFound, equal⟩ := found
      simp only [Prod.mk.injEq] at equal
      have shorter := ih innerFound
      rw [← equal.2]
      simp only [List.length_cons]
      omega

theorem length_cutEval_le (rest : List Char) :
    (cutEval rest).rest.length ≤ rest.length := by
  unfold cutEval
  dsimp only
  split
  next body after found =>
    have shorter := length_splitAtClose_le found
    simp only [token]
    split at shorter
    · simp only [List.length_tail] at shorter
      omega
    · omega
  next => simp

theorem length_cutString_le (quote : Char) (rest : List Char) :
    (cutString quote rest).rest.length ≤ rest.length := by
  have shorter := length_dropWhile_le (fun c => c != quote && c != '\n') rest
  unfold cutString splitRun
  dsimp only
  split
  next c after equal =>
    rw [equal] at shorter
    simp only [List.length_cons] at shorter
    split
    · simp only [token]
      omega
    · simpa using shorter
  next => simp

theorem length_cutNumber_lt {c : Char} (rest : List Char) (digit : c.isDigit = true) :
    (cutNumber (c :: rest)).rest.length < (c :: rest).length := by
  have first : (c :: rest).dropWhile Char.isDigit = rest.dropWhile Char.isDigit := by
    simp [digit]
  have shorter := length_dropWhile_le Char.isDigit rest
  unfold cutNumber splitRun
  rw [first]
  dsimp only
  split
  next next more equal =>
    have fraction := length_dropWhile_le Char.isDigit (next :: more)
    have after : more.length + 2 ≤ rest.length := by
      rw [equal] at shorter
      simpa only [List.length_cons] using shorter
    simp only [List.length_cons] at fraction ⊢
    split
    · simp only [token]
      omega
    · simp only [token]
      omega
  next =>
    simp only [token, List.length_cons]
    omega

theorem length_cutWithEquals_le (c : Char) (rest : List Char) (long : Token) (short : Piece) :
    (cutWithEquals c rest long short).rest.length ≤ rest.length := by
  unfold cutWithEquals
  split
  · simp [token]
  · exact Nat.le_refl _

/-- Every cut takes something off the text. -/
theorem length_cut_lt (c : Char) (rest : List Char) :
    (cut c rest).rest.length < (c :: rest).length := by
  have spaces := length_dropWhile_le isSpace rest
  have comment := length_dropWhile_le (· != '\n') rest
  have breaks := length_dropWhile_le isLineBreak rest
  have eval := length_cutEval_le rest
  have equals := length_cutWithEquals_le c rest
  unfold cut
  split
  · simp only [splitRun, List.length_cons]
    omega
  · split
    next mark =>
      have notBreak : (c != '\n') = true := by
        simp only [Bool.and_eq_true, Bool.or_eq_true, beq_iff_eq] at mark
        obtain ⟨rfl | rfl, _⟩ := mark <;> decide
      simp only [cutComment, splitRun, List.dropWhile_cons, notBreak, if_true, List.length_cons]
      omega
    · split
      · simp only [splitRun, List.length_cons]
        omega
      · split
        next digit => exact length_cutNumber_lt rest digit
        next =>
          split
          next start =>
            have word := length_splitWord_le rest
            have taken : c.isAlphanum = true ∨ c = '_' := by
              simp only [isWordStart, Bool.or_eq_true, beq_iff_eq] at start
              rcases start with alpha | underscore
              · exact Or.inl (by simp [Char.isAlphanum, alpha])
              · exact Or.inr underscore
            have opened : splitWord (c :: rest) =
                (c :: (splitWord rest).1, (splitWord rest).2) := by
              rw [splitWord]
              rcases taken with alphanum | underscore
              · simp [alphanum]
              · simp [underscore]
            rw [opened]
            simp only [token, List.length_cons]
            omega
          next =>
            split
            all_goals try simp only [token, List.length_cons]
            all_goals try omega
            all_goals try exact Nat.lt_succ_of_le (equals _ _)
            all_goals try exact Nat.lt_succ_of_le (length_cutString_le _ rest)
            next =>
              split
              · simp only [List.length_cons]
                omega
              · simp

end Scanner

/-- A piece of the source and the bytes it takes. -/
structure PlacedPiece where
  piece : Piece
  span : Span
deriving DecidableEq, Repr

/-- The pieces of a text that starts at offset `start`. -/
def pieces (start : Nat) : List Char → List PlacedPiece
  | [] => []
  | c :: rest =>
    let first := Scanner.cut c rest
    let stop := start + byteSize first.taken
    ⟨first.piece, ⟨start, stop⟩⟩ :: pieces stop first.rest
termination_by chars => chars.length
decreasing_by exact Scanner.length_cut_lt c rest

end AutomationScript
