import AutomationScript.Proofs.Token.Layout

/-!
# Where statements are separated

Between two tokens of a text stands at most one `newline`.  It stands there if the gap between
them breaks the line, no bracket is open, the first of them asks for no more, and the second
does not continue the line before.
-/

namespace AutomationScript

open List Scanner

/-- The tokens after which an expression goes on on the next line. -/
def continuationTokens : List Token :=
  [.plus, .minus, .star, .slash, .lt, .gt, .le, .ge, .eqEq, .ne, .andWord, .orWord, .notWord, .eq,
    .comma, .dot]

/-- The operators that continue the line before.  A minus may be a sign. -/
def leadingOperators : List Token :=
  [.plus, .star, .slash, .lt, .gt, .le, .ge, .eqEq, .ne, .andWord, .orWord]

theorem asksForMore_eq_false_iff {t : Token} (isWritten : t ≠ .newline) :
    t.asksForMore = false ↔ t ∉ continuationTokens ∧ t ≠ .semicolon := by
  cases t <;> simp_all [Token.asksForMore, continuationTokens]

theorem continuesLine_eq_false_iff {t : Token} :
    t.continuesLine = false ↔ t ∉ leadingOperators := by
  cases t <;> simp [Token.continuesLine, leadingOperators]

namespace Gap

variable {after gap more : List Char}

theorem append (isGap : Gap (more ++ after) gap) (isMore : Gap after more) :
    Gap after (gap ++ more) := by
  induction isGap with
  | nil => exact isMore
  | blank isBlank _ ih => exact .blank isBlank ih
  | comment isMark oneLine toEnd _ ih =>
    rw [cons_append, cons_append, append_assoc]
    exact .comment isMark oneLine (by rwa [append_assoc]) ih

theorem breaksLine_append (isGap : Gap (more ++ after) gap) :
    breaksLine false (gap ++ more) = (breaksLine false gap || breaksLine false more) := by
  induction isGap with
  | nil => rfl
  | @blank c rest isBlank _ ih =>
    rw [cons_append, breaksLine, breaksLine]
    rcases isBlank with isBlank | breaks
    · simp [isBlank, ih, Bool.or_assoc]
    · simp [breaks]
  | comment isMark oneLine toEnd _ ih =>
    have toEnd' := toEnd
    rw [← append_assoc] at toEnd'
    rw [cons_append, cons_append, append_assoc,
      breaksLine_mark isMark oneLine (head?_mem_append toEnd'),
      breaksLine_mark isMark oneLine (head?_mem_append toEnd), ih]

end Gap

namespace Layout

variable {depth start : Nat} {canEnd : Bool} {chars : List Char}

theorem first {next : Lexeme} {back : List Lexeme}
    (layout : Layout depth canEnd start chars (next :: back)) (isNext : next.token ≠ .newline) :
    ∃ gap after, chars = gap ++ after ∧ Gap after gap ∧
      next.span.start = start + byteSize gap ∧
      (next.token = .eof ∨
        (canEnd && breaksLine false gap && !next.token.continuesLine) = false) := by
  cases layout with
  | eof isGap => exact ⟨chars, [], (append_nil _).symm, isGap, rfl, .inl rfl⟩
  | token isGap _ unmarked _ => exact ⟨_, _, rfl, isGap, rfl, .inr unmarked⟩
  | newline => exact absurd rfl isNext

/-- A mark stands for line breaks where a statement can end, and a statement starts after it. -/
theorem mark {mark : Lexeme} {lexemes : List Lexeme}
    (layout : Layout depth canEnd start chars (mark :: lexemes)) (isMark : mark.token = .newline) :
    canEnd = true ∧ startsStatement lexemes = true ∧
      ∃ gap rest, chars = gap ++ rest ∧ Gap rest gap ∧ breaksLine false gap = true ∧
        Layout depth false (start + byteSize gap) rest lexemes := by
  cases layout with
  | eof => cases isMark
  | token _ reads =>
    cases isMark
    cases reads.isWritten
  | @newline _ _ gap breaks rest _ isGap some areBreaks starts later =>
    have isMore : Gap rest breaks := by
      rw [← append_nil breaks]
      exact Gap.nil.blanks fun c member => .inr (areBreaks c member)
    refine ⟨rfl, starts, gap ++ breaks, rest, (append_assoc ..).symm, isGap.append isMore,
      ?_, ?_⟩
    · cases breaks with
      | nil => exact absurd rfl some
      | cons c more =>
        rw [isGap.breaksLine_append, breaksLine, areBreaks c mem_cons_self]
        simp
    · rwa [byteSize_append, ← Nat.add_assoc]

theorem next {marks back : List Lexeme} {next : Lexeme}
    (layout : Layout depth canEnd start chars (marks ++ next :: back))
    (isNext : next.token ≠ .newline) (areMarks : ∀ mark ∈ marks, mark.token = .newline) :
    ∃ gap after, chars = gap ++ after ∧ Gap after gap ∧
      next.span.start = start + byteSize gap ∧ marks.length ≤ 1 ∧
      (marks ≠ [] ↔ breaksLine false gap = true ∧ canEnd = true ∧
        next.token.continuesLine = false ∧ next.token ≠ .eof) := by
  cases marks with
  | nil =>
    obtain ⟨gap, after, whole, isGap, place, unmarked⟩ := layout.first isNext
    refine ⟨gap, after, whole, isGap, place, Nat.zero_le _, fun some => absurd rfl some, ?_⟩
    rintro ⟨breaks, ends, starts, written⟩
    rcases unmarked with isEnd | unmarked
    · exact absurd isEnd written
    · simp [breaks, ends, starts] at unmarked
  | cons mark marks =>
    obtain ⟨ends, starts, front, rest, rfl, isFront, breaks, later⟩ :=
      layout.mark (areMarks mark mem_cons_self)
    -- No statement can end twice in one gap.
    have none : marks = [] := by
      cases marks with
      | nil => rfl
      | cons other _ =>
        have isOther := areMarks other (mem_cons_of_mem _ mem_cons_self)
        exact absurd (later.mark isOther).1 Bool.false_ne_true
    subst none
    obtain ⟨gap, after, rfl, isGap, place, _⟩ := later.first isNext
    obtain ⟨isWritten, goesOn⟩ : next.token.isWritten = true ∧ (!next.token.continuesLine) = true :=
      Bool.and_eq_true_iff.mp starts
    refine ⟨front ++ gap, after, (append_assoc ..).symm, isFront.append isGap, ?_,
      Nat.le_refl _, ?_⟩
    · rw [place, byteSize_append, Nat.add_assoc]
    · refine ⟨fun _ => ⟨?_, ends, by simpa using goesOn, ?_⟩,
        fun _ => cons_ne_nil _ _⟩
      · rw [isFront.breaksLine_append, breaks, Bool.true_or]
      · intro isEnd
        rw [isEnd] at isWritten
        cases isWritten

theorem separated {lexemes : List Lexeme} (layout : Layout depth canEnd start chars lexemes)
    {front marks back : List Lexeme} {last next : Lexeme}
    (stream : lexemes = front ++ last :: (marks ++ next :: back)) (isLast : last.token ≠ .newline)
    (isNext : next.token ≠ .newline) (areMarks : ∀ mark ∈ marks, mark.token = .newline) :
    ∃ before gap after, chars = before ++ (gap ++ after) ∧ Gap after gap ∧
      last.span.stop = start + byteSize before ∧
      next.span.start = start + byteSize before + byteSize gap ∧ marks.length ≤ 1 ∧
      (marks ≠ [] ↔ breaksLine false gap = true ∧
        (((front ++ [last]).map Lexeme.token).foldl StreamState.depthAfter depth = 0 ∧
          last.token.asksForMore = false) ∧
        next.token.continuesLine = false ∧ next.token ≠ .eof) := by
  induction layout generalizing front with
  | eof isGap =>
    cases front with
    | nil => simp at stream
    | cons _ _ => simp at stream
  | @token depth _ start gap taken rest t lexemes isGap reads unmarked later ih =>
    cases front with
    | nil =>
      obtain ⟨rfl, rfl⟩ := List.cons.inj stream
      obtain ⟨between, after, rfl, isBetween, place, atMostOne, marked⟩ :=
        later.next isNext areMarks
      refine ⟨gap ++ taken, between, after, by rw [append_assoc], isBetween, ?_, ?_,
        atMostOne, marked.trans ?_⟩
      · rw [byteSize_append, Nat.add_assoc]
      · rw [place, byteSize_append, Nat.add_assoc start]
      · simp
    | cons first front =>
      obtain ⟨rfl, rest⟩ := List.cons.inj stream
      obtain ⟨before, between, after, rfl, isBetween, placeLast, placeNext, rule⟩ := ih rest
      refine ⟨gap ++ (taken ++ before), between, after, by simp, isBetween, ?_, ?_, rule⟩
      · rw [placeLast, byteSize_append, byteSize_append]
        omega
      · rw [placeNext, byteSize_append, byteSize_append]
        omega
  | @newline depth start gap breaks rest lexemes isGap some areBreaks starts later ih =>
    cases front with
    | nil =>
      obtain ⟨rfl, -⟩ := List.cons.inj stream
      exact absurd rfl isLast
    | cons first front =>
      obtain ⟨rfl, rest⟩ := List.cons.inj stream
      obtain ⟨before, between, after, rfl, isBetween, placeLast, placeNext, rule⟩ := ih rest
      refine ⟨gap ++ (breaks ++ before), between, after, by simp, isBetween, ?_, ?_, rule⟩
      · rw [placeLast, byteSize_append, byteSize_append]
        omega
      · rw [placeNext, byteSize_append, byteSize_append]
        omega

end Layout

/-- No `newline` stands before the first token, and between two tokens that follow each other
stands at most one.  It stands there just if the gap between the two breaks the line outside of
comments, all brackets are closed, the first is none after which the statement goes on or has
ended, and the second neither continues the line before nor ends the text. -/
theorem newline_between_iff
    {source : String} {lexemes : List Lexeme} (read : tokenize source = .ok lexemes) :
    (∀ first ∈ lexemes.head?, first.token ≠ .newline) ∧
    ∀ {front marks back : List Lexeme} {last next : Lexeme},
      lexemes = front ++ last :: (marks ++ next :: back) →
      last.token ≠ .newline → next.token ≠ .newline → (∀ mark ∈ marks, mark.token = .newline) →
      ∃ before gap after, source.toList = before ++ (gap ++ after) ∧ Gap after gap ∧
        last.span.stop = byteSize before ∧ next.span.start = byteSize (before ++ gap) ∧
        marks.length ≤ 1 ∧
        (marks ≠ [] ↔ breaksLine false gap = true ∧
          ((front ++ [last]).map Lexeme.token).foldl StreamState.depthAfter 0 = 0 ∧
          last.token ∉ continuationTokens ∧ last.token ≠ .semicolon ∧
          next.token ∉ leadingOperators ∧ next.token ≠ .eof) := by
  have layout := layout_tokenize read
  refine ⟨?_, fun stream isLast isNext areMarks => ?_⟩
  · rintro first isFirst isMark
    obtain ⟨rest, rfl⟩ := List.head?_eq_some_iff.mp isFirst
    exact absurd (layout.mark isMark).1 Bool.false_ne_true
  · obtain ⟨before, gap, after, whole, isGap, placeLast, placeNext, atMostOne, rule⟩ :=
      layout.separated stream isLast isNext areMarks
    rw [Nat.zero_add] at placeLast placeNext
    refine ⟨before, gap, after, whole, isGap, placeLast, ?_, atMostOne, rule.trans ?_⟩
    · rw [placeNext, byteSize_append]
    · rw [asksForMore_eq_false_iff isLast, continuesLine_eq_false_iff]
      simp only [and_assoc]

/-- A carriage return in a comment and one in brackets separate nothing, the one after the
closing bracket does. -/
theorem newline_between_iff_brackets :
    ∃ front mark back, tokenize "f(1, -- \r\r\n2)\r- x" =
        .ok (front ++ ⟨.rightParen, ⟨12, 13⟩⟩ :: ([mark] ++ ⟨.minus, ⟨14, 15⟩⟩ :: back)) ∧
      mark.token = .newline ∧
      (∀ first ∈ front.head?, first.token ≠ .newline) ∧
      ∃ before gap after, "f(1, -- \r\r\n2)\r- x".toList = before ++ (gap ++ after) ∧
        Gap after gap ∧ 13 = byteSize before ∧ 14 = byteSize (before ++ gap) ∧
        breaksLine false gap = true := by
  let front : List Lexeme := [⟨.ident "f", ⟨0, 1⟩⟩, ⟨.leftParen, ⟨1, 2⟩⟩,
    ⟨.number (Number.ofNumeral false ['1'] [] 0), ⟨2, 3⟩⟩, ⟨.comma, ⟨3, 4⟩⟩,
    ⟨.number (Number.ofNumeral false ['2'] [] 0), ⟨11, 12⟩⟩]
  let mark : Lexeme := ⟨.newline, ⟨13, 14⟩⟩
  let back : List Lexeme := [⟨.ident "x", ⟨16, 17⟩⟩, ⟨.eof, ⟨17, 17⟩⟩]
  have read : tokenize "f(1, -- \r\r\n2)\r- x" =
      .ok (front ++ ⟨.rightParen, ⟨12, 13⟩⟩ :: ([mark] ++ ⟨.minus, ⟨14, 15⟩⟩ :: back)) := by
    decide +kernel
  obtain ⟨starts, separated⟩ := newline_between_iff read
  obtain ⟨before, gap, after, whole, isGap, placeLast, placeNext, -, rule⟩ :=
    separated rfl (by decide) (by decide) (by decide)
  exact ⟨front, mark, back, read, rfl, starts, before, gap, after, whole, isGap, placeLast,
    placeNext, (rule.mp (List.cons_ne_nil _ _)).1⟩

end AutomationScript
