import AutomationScript.Proofs.Program.Relocated
import AutomationScript.Proofs.Grammar.Runs
import AutomationScript.Proofs.Token.Concatenation
import AutomationScript.Proofs.Token.Spans

/-!
# The tokens of lines

A text is put together from lines that leave no bracket open, that do not end where a statement
has to go on, and that do not start with an operator.  Its token stream has the tokens of each
line, in the same columns, with a `newline` between lines that have tokens.
-/

namespace AutomationScript

open List Scanner

variable {before : List Char} {lines : List (List Char)}

/-! ## The pieces of a line -/

def Piece.isLineBreak : Piece → Bool
  | .lineBreak => true
  | _ => false

theorem isLineBreak_cut {c : Char} (goesOn : Scanner.isLineBreak c = false) (rest : List Char) :
    (cut c rest).piece.isLineBreak = false := by
  have kind := cutOf_cut c rest
  generalize cut c rest = first at kind ⊢
  cases kind with
  | lineBreaks breaks => exact absurd breaks (Bool.eq_false_iff.mp goesOn)
  | _ => rfl

variable {line : List Char}

theorem isLineBreak_pieces (oneLine : ∀ c ∈ line, Scanner.isLineBreak c = false) {start : Nat}
    {placed : PlacedPiece} (member : placed ∈ pieces start line) :
    placed.piece.isLineBreak = false := by
  induction start, line using pieces.induct with
  | case1 start =>
    rw [pieces] at member
    cases member
  | case2 start c rest first stop ih =>
    rw [pieces] at member
    have parts := taken_append_rest c rest
    rcases mem_cons.mp member with rfl | later
    · exact isLineBreak_cut (oneLine c mem_cons_self) rest
    · refine ih (fun c' inRest => oneLine c' ?_) later
      rw [← parts]
      exact mem_append_right _ inRest

theorem pieces_add (start more : Nat) (chars : List Char) :
    pieces (start + more) chars = (pieces start chars).map fun placed =>
      ⟨placed.piece, ⟨placed.span.start + more, placed.span.stop + more⟩⟩ := by
  induction start, chars using pieces.induct with
  | case1 start => simp [pieces]
  | case2 start c rest first stop ih =>
    have moved : start + more + byteSize (cut c rest).taken =
        start + byteSize (cut c rest).taken + more := by
      omega
    rw [pieces, pieces, map_cons, ← ih, moved]

theorem pieces_append (oneLine : ∀ c ∈ line, Scanner.isLineBreak c = false)
    (noFault : ∀ error, .fault error ∉ kinds line) (start : Nat) (more : List Char) :
    pieces start (line ++ '\n' :: more) =
      pieces start line ++ pieces (start + byteSize line) ('\n' :: more) := by
  induction start, line using pieces.induct with
  | case1 start => simp [pieces, byteSize]
  | case2 start c rest first stop ih =>
    have parts : first.taken ++ first.rest = c :: rest := taken_append_rest c rest
    obtain ⟨noFaultHere, noFaultRest⟩ := noFault_cut noFault
    have cutBefore := cut_append more (oneLine c mem_cons_self) noFaultHere
    have restPieces := ih (fun c' member => oneLine c' ?_) noFaultRest
    · have whole : start + byteSize (c :: rest) = stop + byteSize first.rest := by
        rw [← parts, byteSize_append, ← Nat.add_assoc]
      rw [cons_append, pieces, pieces, cutBefore, whole, cons_append, ← restPieces]
      rfl
    · rw [← parts]
      exact mem_append_right _ member

/-! ## Taking in a line -/

def lexemesOf (placed : List PlacedPiece) : List Lexeme :=
  placed.filterMap fun p =>
    match p.piece with
    | .token token => some ⟨token, p.span⟩
    | _ => none

theorem mem_lexemesOf {placed : List PlacedPiece} {lexeme : Lexeme}
    (member : lexeme ∈ lexemesOf placed) : ⟨.token lexeme.token, lexeme.span⟩ ∈ placed := by
  obtain ⟨⟨piece, span⟩, isPiece, same⟩ := mem_filterMap.mp member
  cases piece with
  | token token =>
    cases same
    exact isPiece
  | _ => cases same

theorem lexemesOf_map_span (f : Span → Span) (placed : List PlacedPiece) :
    lexemesOf (placed.map fun p => ⟨p.piece, f p.span⟩) =
      (lexemesOf placed).map fun lexeme => ⟨lexeme.token, f lexeme.span⟩ := by
  rw [lexemesOf, lexemesOf, filterMap_map, map_filterMap]
  congr 1
  funext p
  obtain ⟨piece, span⟩ := p
  cases piece <;> rfl

section OneLine

variable {placed : List PlacedPiece} (oneLine : ∀ p ∈ placed, p.piece.isLineBreak = false)
  {o : Outlook} (unmarked : o.due = false)

include oneLine unmarked

/-- Where no mark is due, a line is taken in token by token. -/
theorem lexemesFrom_append_oneLine (place : Span) (rest : List PlacedPiece) :
    lexemesFrom o place (placed ++ rest) = lexemesOf placed ++
      lexemesFrom ((placed.map PlacedPiece.piece).foldl Outlook.after o) place rest := by
  induction placed generalizing o with
  | nil => rfl
  | cons first more ih =>
    obtain ⟨piece, span⟩ := first
    obtain ⟨here, others⟩ := forall_mem_cons.mp oneLine
    cases piece with
    | gap => exact ih others unmarked
    | fault error => exact ih others unmarked
    | lineBreak => cases here
    | token t =>
      have none : o.marks t = false := by rw [Outlook.marks, unmarked, Bool.false_and]
      have later : lexemesFrom (o.after (.token t)) place (more ++ rest) = _ := ih others rfl
      rw [cons_append, lexemesFrom, none, later]
      rfl

theorem lexemesFrom_oneLine (place : Span) : lexemesFrom o place placed = lexemesOf placed := by
  have whole := lexemesFrom_append_oneLine oneLine unmarked place []
  rwa [append_nil, lexemesFrom, append_nil] at whole

theorem due_foldl_after : ((placed.map PlacedPiece.piece).foldl Outlook.after o).due = false := by
  induction placed generalizing o with
  | nil => exact unmarked
  | cons first more ih =>
    obtain ⟨piece, span⟩ := first
    obtain ⟨here, others⟩ := forall_mem_cons.mp oneLine
    cases piece with
    | gap => exact ih others unmarked
    | fault error => exact ih others unmarked
    | lineBreak => cases here
    | token t => exact ih others rfl

end OneLine

/-- Where no statement is open, line breaks at the start of a text do nothing. -/
theorem lexemesFrom_dropWhile (depth : Nat) (due : Bool) (place : Span) (start : Nat)
    (chars : List Char) :
    lexemesFrom ⟨depth, false, due⟩ place (pieces start chars) =
      lexemesFrom ⟨depth, false, due⟩ place
        (pieces (start + byteSize (chars.takeWhile Scanner.isLineBreak))
          (chars.dropWhile Scanner.isLineBreak)) := by
  cases chars with
  | nil => rfl
  | cons c rest =>
    by_cases breaks : Scanner.isLineBreak c = true
    · rw [pieces, cut_of_isLineBreak breaks, takeWhile_cons_of_pos breaks,
        dropWhile_cons_of_pos breaks, lexemesFrom, Outlook.after, Bool.or_false]
      rfl
    · rw [takeWhile_cons_of_neg breaks, dropWhile_cons_of_neg breaks]
      rfl

def feedSpan (start : Nat) (rest : List Char) : Span :=
  ⟨start, start + 1 + byteSize (rest.takeWhile Scanner.isLineBreak)⟩

theorem lexemesFrom_lineFeed (depth : Nat) (canEnd : Bool) (place : Span) (start : Nat)
    (rest : List Char) :
    lexemesFrom ⟨depth, canEnd, false⟩ place (pieces start ('\n' :: rest)) =
      lexemesFrom ⟨depth, false, canEnd⟩ (if canEnd then feedSpan start rest else place)
        (pieces (start + 1) rest) := by
  have size : byteSize ('\n' :: rest.takeWhile Scanner.isLineBreak) =
      1 + byteSize (rest.takeWhile Scanner.isLineBreak) := rfl
  rw [pieces, cut_of_isLineBreak rfl, size, ← Nat.add_assoc, lexemesFrom_dropWhile]
  rfl

/-! ## The places of the tokens of a line -/

/-- The tokens of a line that stands alone, without the end of the input. -/
def lineTokens (line : List Char) : List PlacedToken :=
  placeTokens (LineTable.ofChars line) (lexemesOf (pieces 0 line))

/-- The text is empty or ends in a line feed, so that a line starts after it. -/
def EndsLine (before : List Char) : Prop :=
  before = [] ∨ ∃ front, before = front ++ ['\n']

theorem positionAfter_append (endsLine : EndsLine before) (front : List Char) :
    positionAfter (before ++ front) = (positionAfter front).down (before.count '\n') := by
  have column : ((before ++ front).reverse.takeWhile (· != '\n')).length =
      (front.reverse.takeWhile (· != '\n')).length := by
    rw [reverse_append]
    rcases endsLine with rfl | ⟨earlier, rfl⟩
    · rw [reverse_nil, append_nil]
    · rw [reverse_append, reverse_singleton, singleton_append,
        takeWhile_append]
      split
      · next whole => simpa using whole.symm
      · rfl
  simp only [positionAfter, Position.down, column, count_append, Position.mk.injEq, and_true]
  omega

theorem positionAfter_oneLine (noLineFeed : line.count '\n' = 0) :
    positionAfter line = ⟨1, line.length + 1⟩ := by
  have columns := (count_eq_zero_iff_takeWhile line).mp noLineFeed
  rw [length_reverse] at columns
  rw [positionAfter, noLineFeed, columns]

/-- A line further down in a text has its tokens in the same columns. -/
theorem placeTokens_line (endsLine : EndsLine before) (line after : List Char) :
    placeTokens (LineTable.ofChars (before ++ (line ++ after)))
        (lexemesOf (pieces (byteSize before) line)) =
      (lineTokens line).map (PlacedToken.relocated (Location.down (before.count '\n'))) := by
  have moved := pieces_add 0 (byteSize before) line
  rw [Nat.zero_add] at moved
  rw [moved, lexemesOf_map_span fun span =>
    ⟨span.start + byteSize before, span.stop + byteSize before⟩]
  unfold lineTokens placeTokens
  rw [map_map, map_map]
  apply map_congr_left
  intro lexeme member
  have position : ∀ front back, line = front ++ back →
      (LineTable.ofChars (before ++ (line ++ after))).position
          (byteSize front + byteSize before) =
        ((LineTable.ofChars line).position (byteSize front)).down (before.count '\n') := by
    rintro front back rfl
    rw [Nat.add_comm, ← byteSize_append, append_assoc, ← append_assoc before,
      LineTable.position_byteSize, LineTable.position_byteSize, positionAfter_append endsLine]
  obtain ⟨front, middle, back, isLine, isSpan⟩ := inside_pieces [] (mem_lexemesOf member)
  rw [nil_append] at isLine
  have start := position front (middle ++ back) (isLine.trans (append_assoc ..))
  have stop := position (front ++ middle) back isLine
  have sameStart : lexeme.span.start = byteSize front := congrArg Span.start isSpan
  have sameStop : lexeme.span.stop = byteSize (front ++ middle) := congrArg Span.stop isSpan
  simp only [Function.comp_apply, PlacedToken.relocated, LineTable.location, Location.down,
    sameStart, sameStop, start, stop]

/-! ## Lines one below the other -/

/-- A line after which the next one starts anew: no bracket is open, and no statement goes on. -/
structure IsWholeLine (line : List Char) : Prop where
  oneLine : ∀ c ∈ line, Scanner.isLineBreak c = false
  noFault : ∀ error, .fault error ∉ kinds line
  closed : (tokensOf (lineTokens line)).foldl StreamState.depthAfter 0 = 0
  starts : ∀ first ∈ (tokensOf (lineTokens line)).head?, first.continuesLine = false
  stops : ∀ last ∈ (tokensOf (lineTokens line)).getLast?, last.asksForMore = false

/-- The tokens of lines from line `k` on, which counts from zero: those of each line, and a
`newline` after a line if there are tokens both in it and below. -/
inductive Laid : Nat → List (List Char) → List PlacedToken → Prop
  | nil (k : Nat) : Laid k [] []
  | blank {k : Nat} {line : List Char} {lines : List (List Char)} {tokens : List PlacedToken}
      (empty : lineTokens line = []) (rest : Laid (k + 1) lines tokens) :
      Laid k (line :: lines) tokens
  | last {k : Nat} {line : List Char} {lines : List (List Char)} (some : lineTokens line ≠ [])
      (rest : Laid (k + 1) lines []) :
      Laid k (line :: lines) ((lineTokens line).map (PlacedToken.relocated (Location.down k)))
  | line {k : Nat} {line : List Char} {lines : List (List Char)} {tokens : List PlacedToken}
      (loc : Location) (some : lineTokens line ≠ []) (rest : Laid (k + 1) lines tokens)
      (more : tokens ≠ []) (atEnd : loc.start = ⟨k + 1, line.length + 1⟩) :
      Laid k (line :: lines)
        ((lineTokens line).map (PlacedToken.relocated (Location.down k)) ++
          ⟨.newline, loc⟩ :: tokens)

theorem map_token_lexemesOf (start : Nat) (line : List Char) :
    (lexemesOf (pieces start line)).map Lexeme.token = tokensOf (lineTokens line) := by
  have moved := pieces_add 0 start line
  rw [Nat.zero_add] at moved
  rw [moved, lexemesOf_map_span fun span => ⟨span.start + start, span.stop + start⟩]
  simp [tokensOf, lineTokens, placeTokens]

theorem scriptTokens_oneLine (oneLine : ∀ c ∈ line, Scanner.isLineBreak c = false) :
    scriptTokens line = tokensOf (lineTokens line) := by
  rw [scriptTokens, kinds, ← map_token_lexemesFrom .start ⟨0, 0⟩, ← map_token_lexemesOf 0,
    lexemesFrom_oneLine (fun _ => isLineBreak_pieces oneLine) rfl]

theorem lexemesOf_eq_nil_iff (start : Nat) (line : List Char) :
    lexemesOf (pieces start line) = [] ↔ lineTokens line = [] := by
  have same := map_token_lexemesOf start line
  constructor
  · intro none
    rw [none] at same
    exact map_eq_nil_iff.mp same.symm
  · intro none
    rw [none] at same
    exact map_eq_nil_iff.mp same

namespace IsWholeLine

variable {line : List Char} (isWhole : IsWholeLine line)

include isWhole

theorem foldl_after :
    (kinds line).foldl Outlook.after .start = ⟨0, !(lineTokens line).isEmpty, false⟩ := by
  have depth := depth_foldl_after .start (kinds line)
  have ends := ends_foldl_after .start (kinds line)
  have due : ((kinds line).foldl Outlook.after .start).due = false :=
    due_foldl_after (fun _ => isLineBreak_pieces isWhole.oneLine) rfl
  have tokens : tokensFrom .start (kinds line) = _ := scriptTokens_oneLine isWhole.oneLine
  rw [tokens] at depth ends
  replace depth := depth.trans isWhole.closed
  generalize (kinds line).foldl Outlook.after .start = o at depth ends due
  obtain ⟨_, canEnd, _⟩ := o
  subst depth due
  replace ends : canEnd = _ := (Bool.false_or _).symm.trans ends
  rw [ends]
  rcases eq_nil_or_concat (lineTokens line) with none | ⟨front, last, some⟩
  · rw [none]
    rfl
  · have stops := isWhole.stops last.token (by rw [some]; simp [tokensOf])
    simp [some, tokensOf, stops]

theorem lexemesFrom_append (start : Nat) (place : Span) (rest : List Char) :
    lexemesFrom .start place (pieces start (line ++ '\n' :: rest)) =
      lexemesOf (pieces start line) ++ lexemesFrom ⟨0, false, !(lineTokens line).isEmpty⟩
        (if !(lineTokens line).isEmpty then feedSpan (start + byteSize line) rest else place)
        (pieces (start + byteSize line + 1) rest) := by
  rw [pieces_append isWhole.oneLine isWhole.noFault, lexemesFrom_append_oneLine
    (fun _ => isLineBreak_pieces isWhole.oneLine) rfl, map_piece_pieces, isWhole.foldl_after,
    lexemesFrom_lineFeed]

end IsWholeLine

theorem Laid.starts (each : ∀ line ∈ lines, IsWholeLine line) {k : Nat}
    {tokens : List PlacedToken} (laid : Laid k lines tokens) :
    ∀ first ∈ tokens.head?, first.token.continuesLine = false := by
  have begins : ∀ k line rest, IsWholeLine line → lineTokens line ≠ [] →
      ∀ first ∈ ((lineTokens line).map (PlacedToken.relocated (Location.down k)) ++ rest).head?,
        first.token.continuesLine = false := by
    intro k line rest isWhole some first isFirst
    rw [head?_append_of_ne_nil _ (mt map_eq_nil_iff.mp some), head?_map] at isFirst
    obtain ⟨alone, isAlone, rfl⟩ := Option.map_eq_some_iff.mp isFirst
    refine isWhole.starts alone.token ?_
    rw [tokensOf, head?_map]
    exact Option.mem_map_of_mem _ isAlone
  induction laid with
  | nil k => exact fun _ impossible => by cases impossible
  | blank empty rest ih => exact ih fun line member => each line (mem_cons_of_mem _ member)
  | last some rest ih =>
    rw [← append_nil (List.map _ _)]
    exact begins _ _ [] (each _ mem_cons_self) some
  | line loc some rest more atEnd ih => exact begins _ _ _ (each _ mem_cons_self) some

theorem intercalate_lines (line next : List Char) (lines : List (List Char)) :
    ['\n'].intercalate (line :: next :: lines) =
      line ++ '\n' :: ['\n'].intercalate (next :: lines) := by
  rw [intercalate_cons_cons, append_assoc, singleton_append]

/-- The tokens are the stream of lines that stand after the text `before`. -/
structure IsStream (before : List Char) (lines : List (List Char)) (text : List Char)
    (lexemes : List Lexeme) : Prop where
  reads : ∀ place, lexemesFrom .start place (pieces (byteSize before) text) = lexemes
  laid : Laid (before.count '\n') lines (placeTokens (LineTable.ofChars (before ++ text)) lexemes)

theorem IsStream.exists_cons {rest : List Char} {lexemes : List Lexeme}
    (endsLine : EndsLine before) (isWhole : IsWholeLine line)
    (each : ∀ line ∈ lines, IsWholeLine line)
    (isRest : IsStream (before ++ (line ++ ['\n'])) lines rest lexemes) :
    ∃ lexemes, IsStream before (line :: lines) (line ++ '\n' :: rest) lexemes := by
  obtain ⟨reads, laid⟩ := isRest
  have starts : ∀ first ∈ lexemes.head?, first.token.continuesLine = false := by
    intro first isFirst
    have places := laid.starts each
    rw [placeTokens, head?_map] at places
    exact places _ (Option.mem_map_of_mem _ isFirst)
  have noLineFeed : line.count '\n' = 0 := by
    rw [count_eq_zero]
    intro member
    cases isWhole.oneLine _ member
  have lineNumber : (before ++ (line ++ ['\n'])).count '\n' = before.count '\n' + 1 := by
    simp [noLineFeed]
  have offset : byteSize (before ++ (line ++ ['\n'])) = byteSize before + byteSize line + 1 := by
    rw [byteSize_append, byteSize_append, Nat.add_assoc]
    rfl
  have text : before ++ (line ++ ['\n']) ++ rest = before ++ (line ++ '\n' :: rest) := by simp
  rw [offset] at reads
  rw [lineNumber, text] at laid
  have placed := placeTokens_line endsLine line ('\n' :: rest)
  have taken := fun place => isWhole.lexemesFrom_append (byteSize before) place rest
  by_cases none : lineTokens line = []
  · refine ⟨lexemes, fun place => ?_, .blank none laid⟩
    rw [taken, (lexemesOf_eq_nil_iff _ _).mpr none, none]
    exact reads place
  · have ends : (!(lineTokens line).isEmpty) = true := by simpa using none
    simp only [ends, if_true, lexemesFrom_due (reads _) starts] at taken
    by_cases more : lexemes = []
    · refine ⟨_, taken, ?_⟩
      rw [if_pos more, more, append_nil, append_nil, placed]
      rw [more] at laid
      exact .last none laid
    · refine ⟨_, taken, ?_⟩
      have atEnd : (LineTable.ofChars (before ++ (line ++ '\n' :: rest))).position
          (byteSize before + byteSize line) = ⟨before.count '\n' + 1, line.length + 1⟩ := by
        rw [← append_assoc, ← byteSize_append, LineTable.position_byteSize,
          positionAfter_append endsLine, positionAfter_oneLine noLineFeed, Position.down,
          Nat.add_comm]
      have laidOut := Laid.line
        (LineTable.location _ (feedSpan (byteSize before + byteSize line) rest)) none laid
        (mt map_eq_nil_iff.mp more) atEnd
      rw [← placed] at laidOut
      simpa [placeTokens, more] using laidOut

theorem exists_isStream (each : ∀ line ∈ lines, IsWholeLine line) (endsLine : EndsLine before) :
    ∃ lexemes, IsStream before lines (['\n'].intercalate lines) lexemes := by
  induction lines generalizing before with
  | nil =>
    refine ⟨[], fun place => ?_, .nil _⟩
    rw [intercalate_nil, pieces, lexemesFrom]
  | cons line lines ih =>
    obtain ⟨isWhole, restEach⟩ := forall_mem_cons.mp each
    cases lines with
    | nil =>
      rw [intercalate_singleton]
      refine ⟨_, lexemesFrom_oneLine (fun _ => isLineBreak_pieces isWhole.oneLine) rfl, ?_⟩
      have placed := placeTokens_line endsLine line []
      rw [append_nil] at placed
      rw [placed]
      by_cases none : lineTokens line = []
      · rw [none]
        exact .blank none (.nil _)
      · exact .last none (.nil _)
    | cons next lines =>
      have endsNext : EndsLine (before ++ (line ++ ['\n'])) :=
        .inr ⟨before ++ line, (append_assoc ..).symm⟩
      obtain ⟨lexemes, isRest⟩ := ih restEach endsNext
      rw [intercalate_lines]
      exact isRest.exists_cons endsLine isWhole restEach

/-! ## Streams -/

theorem placeTokens_streamOf {text : List Char} {lexemes : List Lexeme}
    (isStream : lexemesFrom .start ⟨0, 0⟩ (pieces 0 text) = lexemes) :
    placeTokens (LineTable.ofChars text) (streamOf (byteSize text) (pieces 0 text)) =
      placeTokens (LineTable.ofChars text) lexemes ++
        [⟨.eof, ⟨positionAfter text, positionAfter text⟩⟩] := by
  have atEnd := LineTable.position_byteSize text []
  rw [append_nil] at atEnd
  rw [streamOf_eq_lexemesFrom _ _ ⟨0, 0⟩, isStream, placeTokens, map_append]
  simp [placeTokens, LineTable.location, atEnd]

theorem placeTokens_streamOf_oneLine (oneLine : ∀ c ∈ line, Scanner.isLineBreak c = false) :
    placeTokens (LineTable.ofChars line) (streamOf (byteSize line) (pieces 0 line)) =
      lineTokens line ++ [⟨.eof, ⟨positionAfter line, positionAfter line⟩⟩] :=
  placeTokens_streamOf (lexemesFrom_oneLine (fun _ => isLineBreak_pieces oneLine) rfl _)

theorem isWritten_lineTokens {placed : PlacedToken} (member : placed ∈ lineTokens line) :
    placed.token.isWritten = true := by
  obtain ⟨lexeme, isLexeme, rfl⟩ := mem_map.mp member
  exact written_pieces (mem_lexemesOf isLexeme)

/-- The stream of a text that is put together from whole lines. -/
theorem exists_laid_streamOf (each : ∀ line ∈ lines, IsWholeLine line) {text : List Char}
    (isText : text = ['\n'].intercalate lines) :
    ∃ tokens, Laid 0 lines tokens ∧
      placeTokens (LineTable.ofChars text) (streamOf (byteSize text) (pieces 0 text)) =
        tokens ++ [⟨.eof, ⟨positionAfter text, positionAfter text⟩⟩] := by
  obtain ⟨lexemes, reads, laid⟩ := exists_isStream each (.inl rfl)
  rw [← isText] at reads laid
  exact ⟨_, laid, placeTokens_streamOf (reads ⟨0, 0⟩)⟩

theorem noFault_intercalate (each : ∀ line ∈ lines, ∀ error, .fault error ∉ kinds line) :
    ∀ error, .fault error ∉ kinds (['\n'].intercalate lines) := by
  induction lines with
  | nil => simp [kinds_nil]
  | cons line lines ih =>
    have lineEach := each line mem_cons_self
    have restEach := ih fun later member => each later (mem_cons_of_mem _ member)
    cases lines with
    | nil => rwa [intercalate_singleton]
    | cons next lines =>
      rw [intercalate_lines]
      exact noFault_append lineEach restEach

end AutomationScript
