import AutomationScript.Proofs.Token.Concatenation
import AutomationScript.Proofs.Token.Spans

/-!
# How tokens stand in a text

A text is gaps and tokens in turn; a `newline` token stands for a run of line breaks in a gap.  The
tokens of a stream stand in its text as `Layout` says (`layout_tokenize`).
-/

namespace AutomationScript

open List Scanner

variable {after rest text chars : List Char} {depth start : Nat} {canEnd : Bool}
  {lexemes : List Lexeme}

/-! ## Gaps -/

/-- A text of blanks, line breaks and comments, with the text `after` behind it.  A comment runs
to the end of its line. -/
inductive Gap (after : List Char) : List Char → Prop
  | nil : Gap after []
  | blank {c : Char} {rest : List Char} (isBlank : isSpace c = true ∨ isLineBreak c = true)
      (isGap : Gap after rest) : Gap after (c :: rest)
  | comment {mark : Char} {text rest : List Char} (isMark : mark = '/' ∨ mark = '-')
      (oneLine : '\n' ∉ text) (toEnd : ∀ c ∈ (rest ++ after).head?, c = '\n')
      (isGap : Gap after rest) : Gap after (mark :: mark :: (text ++ rest))

/-- Whether a gap breaks the line outside of its comments.  A comment starts with any character
that is not blank, and the line feed after it is no part of it. -/
def breaksLine (inComment : Bool) : List Char → Bool
  | [] => false
  | c :: rest =>
    if inComment then c == '\n' || breaksLine true rest
    else isLineBreak c || breaksLine (!isSpace c) rest

theorem Gap.blanks {blanks : List Char} (isGap : Gap after rest)
    (areBlank : ∀ c ∈ blanks, isSpace c = true ∨ isLineBreak c = true) :
    Gap after (blanks ++ rest) := by
  induction blanks with
  | nil => exact isGap
  | cons c more ih =>
    exact .blank (areBlank c mem_cons_self)
      (ih fun d member => areBlank d (mem_cons_of_mem c member))

theorem breaksLine_spaces {spaces : List Char} (areSpaces : ∀ c ∈ spaces, isSpace c = true)
    (rest : List Char) : breaksLine false (spaces ++ rest) = breaksLine false rest := by
  induction spaces with
  | nil => rfl
  | cons c more ih =>
    have isBlank := areSpaces c mem_cons_self
    have goesOn : isLineBreak c = false := by
      simp only [isSpace, Bool.or_eq_true, beq_iff_eq] at isBlank
      rcases isBlank with rfl | rfl <;> rfl
    rw [cons_append, breaksLine, if_neg Bool.false_ne_true, goesOn, isBlank, Bool.false_or]
    exact ih fun d member => areSpaces d (mem_cons_of_mem c member)

theorem breaksLine_comment (oneLine : '\n' ∉ text) (toEnd : ∀ c ∈ rest.head?, c = '\n') :
    breaksLine true (text ++ rest) = breaksLine false rest := by
  induction text with
  | nil =>
    cases rest with
    | nil => rfl
    | cons c more => rw [toEnd c rfl]; rfl
  | cons c more ih =>
    obtain ⟨different, oneLine⟩ := not_or.mp (mt mem_cons.mpr oneLine)
    rw [cons_append, breaksLine, if_pos rfl, beq_eq_false_iff_ne.mpr (Ne.symm different),
      Bool.false_or, ih oneLine]

theorem head?_mem_append {gap : List Char} (toEnd : ∀ c ∈ (gap ++ after).head?, c = '\n') :
    ∀ c ∈ gap.head?, c = '\n' := by
  intro c isHead
  exact toEnd c (by rw [head?_append, isHead]; rfl)

theorem breaksLine_mark {mark : Char} (isMark : mark = '/' ∨ mark = '-') (oneLine : '\n' ∉ text)
    (toEnd : ∀ c ∈ rest.head?, c = '\n') :
    breaksLine false (mark :: mark :: (text ++ rest)) = breaksLine false rest := by
  have plain : isLineBreak mark = false ∧ isSpace mark = false ∧ mark ≠ '\n' := by
    rcases isMark with rfl | rfl <;> decide
  have oneLine' : '\n' ∉ mark :: text :=
    not_mem_cons_of_ne_of_not_mem plain.2.2.symm oneLine
  rw [breaksLine, if_neg Bool.false_ne_true, plain.1, plain.2.1, Bool.false_or, Bool.not_false]
  exact breaksLine_comment oneLine' toEnd

/-- Whether a statement can start with the first of the tokens. -/
def startsStatement : List Lexeme → Bool
  | first :: _ => first.token.isWritten && !first.token.continuesLine
  | [] => false

theorem lexemesFrom_due_eof {placed : List PlacedPiece}
    (written : ∀ p ∈ placed, p.piece.isWritten = true) (depth : Nat) (place stop : Span) :
    lexemesFrom ⟨depth, false, true⟩ place placed ++ [⟨.eof, stop⟩] =
      if startsStatement (lexemesFrom ⟨depth, false, false⟩ place placed ++ [⟨.eof, stop⟩]) then
        ⟨.newline, place⟩ :: (lexemesFrom ⟨depth, false, false⟩ place placed ++ [⟨.eof, stop⟩])
      else lexemesFrom ⟨depth, false, false⟩ place placed ++ [⟨.eof, stop⟩] := by
  induction placed with
  | nil => rfl
  | cons first rest ih =>
    obtain ⟨piece, span⟩ := first
    have isWritten : piece.isWritten = true := written _ mem_cons_self
    replace ih := ih fun p member => written p (mem_cons_of_mem _ member)
    cases piece with
    | gap => exact ih
    | fault error => exact ih
    | lineBreak => exact ih
    | token t =>
      replace isWritten : t.isWritten = true := isWritten
      cases continues : t.continuesLine <;>
        simp [lexemesFrom, Outlook.marks, Outlook.after, startsStatement, isWritten, continues]

/-! ## Layouts -/

/-- The characters, as a text of their own, are the token and nothing else. -/
structure ReadsAs (t : Token) (taken : List Char) : Prop where
  isWritten : t.isWritten = true
  alone : pieces 0 taken = [⟨.token t, ⟨0, byteSize taken⟩⟩]

/-- How tokens stand in the rest of a text, which starts at the offset `start` after `depth` open
brackets.  A line break before the first token ends a statement only if it `canEnd` there. -/
inductive Layout : (depth : Nat) → (canEnd : Bool) → (start : Nat) → List Char → List Lexeme → Prop
  | eof {depth : Nat} {canEnd : Bool} {start : Nat} {gap : List Char} (isGap : Gap [] gap) :
      Layout depth canEnd start gap
        [⟨.eof, ⟨start + byteSize gap, start + byteSize gap⟩⟩]
  | token {depth : Nat} {canEnd : Bool} {start : Nat} {gap taken rest : List Char} {t : Token}
      {lexemes : List Lexeme} (isGap : Gap (taken ++ rest) gap) (reads : ReadsAs t taken)
      (unmarked : (canEnd && breaksLine false gap && !t.continuesLine) = false)
      (later : Layout (StreamState.depthAfter depth t)
        (StreamState.depthAfter depth t == 0 && !t.asksForMore)
        (start + byteSize gap + byteSize taken) rest lexemes) :
      Layout depth canEnd start (gap ++ (taken ++ rest))
        (⟨t, ⟨start + byteSize gap, start + byteSize gap + byteSize taken⟩⟩ :: lexemes)
  | newline {depth start : Nat} {gap breaks rest : List Char} {lexemes : List Lexeme}
      (isGap : Gap (breaks ++ rest) gap) (some : breaks ≠ [])
      (areBreaks : ∀ c ∈ breaks, isLineBreak c = true) (starts : startsStatement lexemes = true)
      (later : Layout depth false (start + byteSize gap + byteSize breaks) rest lexemes) :
      Layout depth true start (gap ++ (breaks ++ rest))
        (⟨.newline, ⟨start + byteSize gap, start + byteSize gap + byteSize breaks⟩⟩ :: lexemes)

theorem Layout.skip {canEnd' : Bool} {more : List Char}
    (layout : Layout depth canEnd' (start + byteSize more) chars lexemes)
    (joins : ∀ gap after, chars = gap ++ after → Gap after gap → Gap after (more ++ gap))
    (marks : canEnd' = true → canEnd = true)
    (unmarked : ∀ gap after, chars = gap ++ after →
      (canEnd' && breaksLine false gap && startsStatement lexemes) = false →
      (canEnd && breaksLine false (more ++ gap) && startsStatement lexemes) = false) :
    Layout depth canEnd start (more ++ chars) lexemes := by
  have moved : ∀ gap, start + byteSize more + byteSize gap = start + byteSize (more ++ gap) :=
    fun gap => by rw [byteSize_append, Nat.add_assoc]
  cases layout with
  | eof isGap =>
    rw [moved]
    exact .eof (joins _ [] (append_nil _).symm isGap)
  | token isGap reads none later =>
    rw [moved] at later ⊢
    rw [startsStatement, reads.isWritten, Bool.true_and] at unmarked
    rw [← append_assoc]
    exact .token (joins _ _ rfl isGap) reads (unmarked _ _ rfl none) later
  | newline isGap some areBreaks starts later =>
    rw [moved] at later ⊢
    rw [← append_assoc, marks rfl]
    exact .newline (joins _ _ rfl isGap) some areBreaks starts later

theorem Scanner.TokenOf.readsAs {c : Char} {taken : List Char} {t : Token}
    (reads : TokenOf c rest t taken after) : ReadsAs t (c :: taken) := by
  have alone := reads.again [] (.nil after)
  rw [append_nil] at alone
  refine ⟨reads.isWritten, ?_⟩
  rw [pieces, alone, pieces, Nat.zero_add]

theorem Layout.skip_comment {mark : Char} (isMark : mark = '/' ∨ mark = '-')
    (oneLine : '\n' ∉ text) (toEnd : ∀ c ∈ chars.head?, c = '\n')
    (layout : Layout depth canEnd (start + byteSize (mark :: mark :: text)) chars lexemes) :
    Layout depth canEnd start (mark :: mark :: text ++ chars) lexemes := by
  refine layout.skip (fun gap after isWhole isGap => ?_) id fun gap after isWhole none => ?_
  · exact .comment isMark oneLine (isWhole ▸ toEnd) isGap
  · rw [isWhole] at toEnd
    rwa [cons_append, cons_append,
      breaksLine_mark isMark oneLine (head?_mem_append toEnd)]

theorem Layout.skip_breaks {breaks : List Char} (areBreaks : ∀ c ∈ breaks, isLineBreak c = true)
    (unmarked : (canEnd && startsStatement lexemes) = false)
    (layout : Layout depth false (start + byteSize breaks) chars lexemes) :
    Layout depth canEnd start (breaks ++ chars) lexemes := by
  refine layout.skip (fun gap after _ isGap => isGap.blanks fun c member => ?_)
    (fun impossible => by cases impossible) fun gap after _ _ => ?_
  · exact .inr (areBreaks c member)
  · rw [Bool.and_right_comm, unmarked, Bool.false_and]

theorem layout_cut {c : Char} {first : Cut} {placed : List PlacedPiece} {stop : Span}
    (kind : CutOf c rest first) (parts : first.taken ++ first.rest = c :: rest)
    (noFault : ∀ error, first.piece ≠ .fault error)
    (written : ∀ p ∈ placed, p.piece.isWritten = true)
    (later : ∀ depth canEnd place, Layout depth canEnd (start + byteSize first.taken) first.rest
      (lexemesFrom ⟨depth, canEnd, false⟩ place placed ++ [⟨.eof, stop⟩]))
    (depth : Nat) (canEnd : Bool) (place : Span) :
    Layout depth canEnd start (c :: rest) (lexemesFrom ⟨depth, canEnd, false⟩ place
      (⟨first.piece, ⟨start, start + byteSize first.taken⟩⟩ :: placed) ++ [⟨.eof, stop⟩]) := by
  rw [← parts]
  cases kind with
  | spaces isBlank =>
    have areSpaces : ∀ d ∈ c :: rest.takeWhile isSpace, isSpace d = true := by
      rintro d (_ | ⟨_, member⟩)
      · exact isBlank
      · exact mem_takeWhile_imp member
    refine (later depth canEnd place).skip (fun gap after _ isGap => ?_) id fun gap after _ none => ?_
    · exact isGap.blanks fun d member => .inl (areSpaces d member)
    · rwa [breaksLine_spaces areSpaces]
  | comment isMark second =>
    obtain ⟨more, rfl⟩ := head?_eq_some_iff.mp second
    have goesOn : (c != '\n') = true := by
      rcases isMark with rfl | rfl <;> rfl
    have split : cutComment (c :: c :: more) =
        ⟨.gap, c :: c :: more.takeWhile (· != '\n'), more.dropWhile (· != '\n')⟩ := by
      simp [cutComment, splitRun, goesOn]
    rw [split] at later ⊢
    refine (later depth canEnd place).skip_comment isMark (fun member => ?_) fun d isHead => ?_
    · exact absurd (mem_takeWhile_imp member) (by decide)
    · have stopped := head?_dropWhile_not (· != '\n') more
      rw [isHead] at stopped
      simpa using stopped
  | lineBreaks breaks =>
    have areBreaks : ∀ d ∈ c :: rest.takeWhile isLineBreak, isLineBreak d = true := by
      rintro d (_ | ⟨_, member⟩)
      · exact breaks
      · exact mem_takeWhile_imp member
    have unended := later depth false
    cases canEnd with
    | false => exact (unended place).skip_breaks areBreaks (Bool.false_and _)
    | true =>
      change Layout depth true start _ (lexemesFrom ⟨depth, false, true⟩ ⟨start, _⟩ placed ++ _)
      rw [lexemesFrom_due_eof written]
      split
      next starts => exact .newline .nil (cons_ne_nil _ _) areBreaks starts (unended _)
      next unmarked =>
        exact (unended _).skip_breaks areBreaks (by simpa using unmarked)
  | token _ reads => exact .token .nil reads.readsAs (by simp [breaksLine]) (later _ _ _)
  | fault error => exact absurd rfl (noFault error)

theorem layout_lexemesFrom (start : Nat) (noFault : ∀ error, .fault error ∉ kinds chars)
    (depth : Nat) (canEnd : Bool) (place : Span) :
    Layout depth canEnd start chars
      (lexemesFrom ⟨depth, canEnd, false⟩ place (pieces start chars) ++
        [⟨.eof, ⟨start + byteSize chars, start + byteSize chars⟩⟩]) := by
  induction start, chars using pieces.induct generalizing depth canEnd place with
  | case1 start => rw [pieces]; exact .eof .nil
  | case2 start c rest first stop ih =>
    have parts : first.taken ++ first.rest = c :: rest := taken_append_rest c rest
    have whole : start + byteSize (c :: rest) = stop + byteSize first.rest := by
      rw [← parts, byteSize_append, ← Nat.add_assoc]
    obtain ⟨noFaultHere, noFaultRest⟩ := noFault_cut noFault
    rw [pieces, whole]
    exact layout_cut (cutOf_cut c rest) parts noFaultHere (fun p => written_pieces)
      (ih noFaultRest) depth canEnd place

/-- The tokens of a source text stand in it one after the other. -/
theorem layout_tokenize {source : String} (read : tokenize source = .ok lexemes) :
    Layout 0 false 0 source.toList lexemes := by
  obtain ⟨noFault, rfl⟩ := tokenize_eq_ok_iff.mp read
  have layout := layout_lexemesFrom 0 noFault 0 false ⟨0, 0⟩
  rw [Nat.zero_add] at layout
  rwa [streamOf_eq_lexemesFrom _ _ ⟨0, 0⟩]

end AutomationScript
