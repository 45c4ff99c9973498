import AutomationScript.Proofs.Program.Placed
import AutomationScript.Proofs.Token.Marks

/-!
# Where tokens stand

Every piece of a text stands between two places of it, and so the locations of tokens and of faults
lie inside the text.
-/

namespace AutomationScript

open List

/-! ## Spans -/

/-- The span covers some characters of the text, which may be none. -/
def Span.Inside (text : List Char) (span : Span) : Prop :=
  ∃ front middle back, text = front ++ middle ++ back ∧
    span = ⟨byteSize front, byteSize (front ++ middle)⟩

theorem Span.Inside.location {text : List Char} {span : Span} (inside : span.Inside text) :
    ((LineTable.ofChars text).location span).Inside text := by
  obtain ⟨front, middle, back, rfl, rfl⟩ := inside
  refine ⟨front.length, (front ++ middle).length, by simp, by simp, ?_⟩
  have start : (LineTable.ofChars (front ++ middle ++ back)).position (byteSize front) =
      positionAt (front ++ middle ++ back) front.length := by
    rw [positionAt, append_assoc, take_left]
    exact LineTable.position_byteSize front (middle ++ back)
  have stop : (LineTable.ofChars (front ++ middle ++ back)).position (byteSize (front ++ middle)) =
      positionAt (front ++ middle ++ back) (front ++ middle).length := by
    rw [positionAt, take_left]
    exact LineTable.position_byteSize (front ++ middle) back
  unfold LineTable.location
  rw [start, stop]

/-- The pieces of the rest of a text, which starts after the characters `before`. -/
theorem inside_pieces (before : List Char) {chars : List Char} {placed : PlacedPiece}
    (member : placed ∈ pieces (byteSize before) chars) : placed.span.Inside (before ++ chars) := by
  generalize isStart : byteSize before = start at member
  induction start, chars using pieces.induct generalizing before with
  | case1 start =>
    rw [pieces] at member
    cases member
  | case2 start c rest first stop ih =>
    have parts : first.taken ++ first.rest = c :: rest := Scanner.taken_append_rest c rest
    have after : byteSize (before ++ first.taken) = stop := by rw [byteSize_append, isStart]
    rw [pieces] at member
    rcases mem_cons.mp member with rfl | later
    · refine ⟨before, first.taken, first.rest, ?_, by rw [isStart, after]⟩
      rw [append_assoc, parts]
    · have inside := ih _ after later
      rwa [append_assoc, parts] at inside

/-! ## Token streams -/

theorem inside_streamOf {text : List Char} {lexeme : Lexeme}
    (member : lexeme ∈ streamOf (byteSize text) (pieces 0 text)) : lexeme.span.Inside text := by
  have atEnd : Span.Inside text ⟨byteSize text, byteSize text⟩ :=
    ⟨text, [], [], by simp, by rw [append_nil]⟩
  rw [streamOf_eq_lexemesFrom _ _ ⟨byteSize text, byteSize text⟩] at member
  rcases mem_append.mp member with inside | isEnd
  · rcases mem_lexemesFrom inside with isPiece | ⟨-, isPlace | isPiece⟩
    · exact inside_pieces [] isPiece
    · rwa [isPlace]
    · exact inside_pieces [] isPiece
  · rwa [mem_singleton.mp isEnd]

/-! ## Scripts -/

/-- A stream that is not empty, whose last token ends the input, and whose locations satisfy
`P`. -/
structure PlacedStream (P : Location → Prop) (tokens : List PlacedToken) : Prop where
  ended : ∃ front loc, tokens = front ++ [⟨.eof, loc⟩]
  each : ∀ placed ∈ tokens, P placed.loc

theorem placed_faults {source : String} {errors : List Diagnostic}
    (found : tokenize source = .error errors) :
    ∀ error ∈ errors, error.Placed Cause.IsLexical (Location.Inside source.toList) := by
  unfold tokenize at found
  dsimp only at found
  split at found
  · cases found
  · cases found
    intro error member
    obtain ⟨⟨reason, span⟩, isFault, rfl⟩ := mem_map.mp member
    obtain ⟨piece, isPiece, same⟩ := mem_filterMap.mp isFault
    have inside : piece.span.Inside source.toList := inside_pieces [] isPiece
    have sameSpan : piece.span = span := by
      split at same
      · cases same
        rfl
      · cases same
    refine ⟨⟨reason, rfl⟩, IsPlaced.of_some ?_⟩
    rw [← sameSpan]
    exact inside.location

theorem placedStream_of_tokenize {source : String} {lexemes : List Lexeme}
    (read : tokenize source = .ok lexemes) :
    PlacedStream (Location.Inside source.toList)
      (placeTokens (LineTable.ofText source) lexemes) := by
  obtain ⟨-, rfl⟩ := tokenize_eq_ok_iff.mp read
  constructor
  · unfold placeTokens streamOf
    rw [reverse_cons, map_append]
    exact ⟨_, _, rfl⟩
  · intro placed member
    obtain ⟨lexeme, isLexeme, rfl⟩ := mem_map.mp member
    exact (inside_streamOf isLexeme).location

end AutomationScript
