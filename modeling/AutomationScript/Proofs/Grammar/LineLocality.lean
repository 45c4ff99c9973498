import AutomationScript.Proofs.Grammar.Chars
import AutomationScript.Proofs.Grammar.MirrorLines
import AutomationScript.Proofs.Grammar.Placed
import AutomationScript.Proofs.Token.Lines

/-!
# Errors stay on their line

A text is put together from lines each of which is a script on its own.  Then its statements are
those of the lines, moved down, and its errors are those of the lines, however broken a line is.
Only a line that breaks off before the end of the text reports another place: the end of the text,
which stands below empty lines and comments.
-/

namespace AutomationScript

open List AutomationScript.Reader AutomationScript.Parser AutomationScript.Grammar

variable {rest : List PlacedToken} {k : Nat}

/-- A line that is a script on its own, wherever it stands. -/
structure SelfContained (line : String) : Prop where
  oneLine : ∀ c ∈ line.toList, c ≠ '\n' ∧ c ≠ '\r'
  readable : ∃ lexemes, tokenize line = .ok lexemes
  closed : ((pieces 0 line.toList).foldl StreamState.step ⟨0, []⟩).depth = 0
  unseparated : .semicolon ∉ tokensIn line
  starts : ∀ first ∈ (tokensIn line).head?,
    opensBlock first = false ∧ first.continuesLine = false
  stops : ∀ last ∈ (tokensIn line).getLast?, last.asksForMore = false

/-- An error of a line alone, found again in a text that has the line as its line `k`, counted from
zero.  It stands in the same column.  If it is at the end of the line, and if there is no token
`below`, then it may stand at the end of the text instead. -/
structure FoundAgain (textEnd : Position) (k : Nat) (line : String) (below : List String)
    (alone found : Diagnostic) : Prop where
  place : ∃ loc loc', alone.location = some loc ∧ found.location = some loc' ∧
    (loc'.start = ⟨k + 1, loc.start.column⟩ ∨
      loc.start = ⟨1, line.length + 1⟩ ∧ loc'.start = textEnd ∧ ∀ other ∈ below, tokensIn other = [])
  message : found.message = alone.message ∨
    ∃ before, alone.message = before ++ "end of input" ∧ found.message = before ++ "end of line"

/-- The errors of a text, line by line from line `k` on: as many as each line has alone. -/
inductive FoundByLine (textEnd : Position) : Nat → List String → List (List Diagnostic) → Prop
  | nil (k : Nat) : FoundByLine textEnd k [] []
  | cons {k : Nat} {line : String} {below : List String} {found : List Diagnostic}
      {others : List (List Diagnostic)}
      (here : Forall₂ (FoundAgain textEnd k line below) (parse line).2 found)
      (rest : FoundByLine textEnd (k + 1) below others) :
      FoundByLine textEnd k (line :: below) (found :: others)

/-- The statements of lines, moved to their lines, from line `k` on. -/
def statementsByLine (k : Nat) (lines : List String) : List Stmt :=
  (lines.zipIdx k).flatMap fun entry =>
    (parse entry.1).1.map (Stmt.relocated (Location.down entry.2))

/-! ## A line alone -/

def lineEnd (line : String) : PlacedToken :=
  ⟨.eof, ⟨⟨1, line.length + 1⟩, ⟨1, line.length + 1⟩⟩⟩

theorem parseTokens_of_advances {xs : List PlacedToken} {last : PlacedToken}
    {statements : List Stmt} {errors : List Diagnostic} {turns : Nat} (isEof : last.token = .eof)
    (advances : Advances xs [last] statements errors turns) (few : turns < xs.length) :
    parseTokens xs = (statements, errors) := by
  obtain ⟨fuel, isFuel⟩ : ∃ fuel, xs.length = turns + (fuel + 1) :=
    ⟨xs.length - turns - 1, by omega⟩
  have ended : programBody (blockBody xs.length) (fuel + 1) ⟨[last], [] ++ errors⟩ =
      .ok [] ⟨dropTerminators [last], errors⟩ := by
    rw [programBody_succ]
    apply gather_of_closes
    rw [dropTerminators_cons_of_not (by rw [isEof]; decide)]
    exact decide_eq_true isEof
  have ran : program ⟨xs, []⟩ = .ok (statements ++ []) ⟨dropTerminators [last], errors⟩ := by
    change programBody (blockBody xs.length) xs.length ⟨xs, []⟩ = _
    nth_rewrite 2 [isFuel]
    exact advances _ _ [] [] _ (Nat.succ_pos fuel) ended
  rw [parseTokens, ran, append_nil]

namespace SelfContained

variable {line : String} (self : SelfContained line)

include self

theorem noFault (error : LexicalError) : .fault error ∉ kinds line.toList := by
  obtain ⟨lexemes, read⟩ := self.readable
  exact (tokenize_eq_ok_iff.mp read).1 error

theorem noLineBreak : ∀ c ∈ line.toList, Scanner.isLineBreak c = false := by
  intro c member
  obtain ⟨notLineFeed, notReturn⟩ := self.oneLine c member
  simp [Scanner.isLineBreak, notLineFeed, notReturn]

theorem tokensIn_eq : tokensIn line = tokensOf (lineTokens line.toList) := by
  rw [AutomationScript.tokensIn_eq self.noFault, scriptTokens_oneLine self.noLineBreak]

theorem isWholeLine : IsWholeLine line.toList where
  oneLine := self.noLineBreak
  noFault := self.noFault
  closed := by
    rw [← scriptTokens_oneLine self.noLineBreak, ← depth_foldl_step]
    exact self.closed
  starts := by
    rw [← self.tokensIn_eq]
    exact fun first isFirst => (self.starts first isFirst).2
  stops := by
    rw [← self.tokensIn_eq]
    exact self.stops

theorem goesOn : ∀ placed ∈ lineTokens line.toList, isStop placed.token = false := by
  intro placed member
  have written := isWritten_lineTokens member
  have isToken : placed.token ∈ tokensIn line := by
    rw [self.tokensIn_eq]
    exact mem_map_of_mem member
  cases isStopped : placed.token with
  | semicolon => exact absurd (isStopped ▸ isToken) self.unseparated
  | newline =>
    rw [isStopped] at written
    cases written
  | eof =>
    rw [isStopped] at written
    cases written
  | _ => rfl

theorem simple : opensBlock (headToken (lineTokens line.toList)) = false := by
  have starts := self.starts
  rw [self.tokensIn_eq] at starts
  cases tokens : lineTokens line.toList with
  | nil => rfl
  | cons placed more =>
    rw [tokens] at starts
    exact (starts placed.token rfl).1

theorem noLineFeed : line.toList.count '\n' = 0 := by
  rw [count_eq_zero]
  intro member
  exact (self.oneLine _ member).1 rfl

theorem parse_eq : parse line = parseTokens (lineTokens line.toList ++ [lineEnd line]) := by
  rw [parse_eq_parseChars, parseChars]
  dsimp only
  rw [faultsOf_eq_nil_iff.mpr self.noFault]
  dsimp only
  rw [placeTokens_streamOf_oneLine self.noLineBreak, positionAfter_oneLine self.noLineFeed]
  rfl

theorem line_eq_one {error : Diagnostic} (member : error ∈ (parse line).2) {loc : Location}
    (isPlace : error.location = some loc) : loc.start.line = 1 := by
  have placed : IsPlaced (Location.Inside line.toList) error.location := by
    rcases (placed_parse line).2 with lexical | grammatical
    · exact (lexical error member).location
    · exact (grammatical error member).location
  obtain ⟨known, isKnown, inside⟩ := placed
  obtain rfl : loc = known := Option.some.inj (isPlace.symm.trans isKnown)
  obtain ⟨i, j, _, _, rfl⟩ := inside
  have few := (take_sublist i line.toList).count_le '\n'
  rw [self.noLineFeed] at few
  simp only [positionAt, positionAfter]
  omega

end SelfContained

/-- Whether a line is a script on its own can be computed. -/
theorem selfContained_iff (line : String) :
    SelfContained line ↔
      (∀ c ∈ line.toList, c ≠ '\n' ∧ c ≠ '\r') ∧ faultsOf (pieces 0 line.toList) = [] ∧
      ((pieces 0 line.toList).foldl StreamState.step ⟨0, []⟩).depth = 0 ∧
      .semicolon ∉ tokensIn line ∧
      (∀ first ∈ (tokensIn line).head?, opensBlock first = false ∧ first.continuesLine = false) ∧
      ∀ last ∈ (tokensIn line).getLast?, last.asksForMore = false := by
  constructor
  · intro self
    exact ⟨self.oneLine, faultsOf_eq_nil_iff.mpr self.noFault, self.closed, self.unseparated,
      self.starts, self.stops⟩
  · rintro ⟨oneLine, noFault, closed, unseparated, starts, stops⟩
    have readable := tokenize_eq_ok_iff.mpr ⟨faultsOf_eq_nil_iff.mp noFault, rfl⟩
    exact ⟨oneLine, ⟨_, readable⟩, closed, unseparated, starts, stops⟩

instance (line : String) : Decidable (SelfContained line) :=
  -- Only the characters of the line are tried, not all that there are.
  have _ : Decidable (∀ c ∈ line.toList, c ≠ '\n' ∧ c ≠ '\r') := List.decidableBAll _ _
  decidable_of_iff _ (selfContained_iff line).symm

/-! ## A line in a text -/

/-- A line alone, and the same line as line `k` of a text, before `rest`. -/
def lineSplice (line : String) (k : Nat) (rest : List PlacedToken) (nonempty : rest ≠ [])
    (stops : isStop (headToken rest) = true) : Splice where
  slack := .down k
  Stops xs ys := xs = [lineEnd line] ∧ ys = rest
  nonempty := by
    rintro _ _ ⟨rfl, rfl⟩
    exact ⟨cons_ne_nil _ _, nonempty⟩
  stops := by
    rintro _ _ ⟨rfl, rfl⟩
    exact ⟨rfl, stops⟩

theorem shows_lineSplice (line : String) (k : Nat) (nonempty : rest ≠ [])
    (stops : isStop (headToken rest) = true) {front : List PlacedToken}
    (goesOn : ∀ placed ∈ front, isStop placed.token = false) :
    (lineSplice line k rest nonempty stops).Shows (headToken front) front.length
      (front ++ [lineEnd line]) (front.map (PlacedToken.relocated (Location.down k)) ++ rest) := by
  induction front with
  | nil => exact .stop ⟨rfl, rfl⟩
  | cons placed more ih =>
    obtain ⟨firstGoesOn, moreGoesOn⟩ := forall_mem_cons.mp goesOn
    exact .token firstGoesOn rfl (ih moreGoesOn)

theorem SelfContained.exists_advances {line : String} (self : SelfContained line)
    (some : lineTokens line.toList ≠ []) (k : Nat) (nonempty : rest ≠ [])
    (stops : isStop (headToken rest) = true) :
    ∃ found turns, turns ≤ (lineTokens line.toList).length ∧
      Forall₂ (lineSplice line k rest nonempty stops).Blames (parse line).2 found ∧
      Advances ((lineTokens line.toList).map (PlacedToken.relocated (Location.down k)) ++ rest) rest
        ((parse line).1.map (Stmt.relocated (Location.down k))) found turns := by
  have shown := shows_lineSplice line k nonempty stops self.goesOn
  have goesOn : isStop (headToken (lineTokens line.toList)) = false := by
    have each := self.goesOn
    generalize lineTokens line.toList = tokens at some each
    cases tokens with
    | nil => exact absurd rfl some
    | cons first others => exact each first mem_cons_self
  obtain ⟨_, _, statements, statements', errors, found, turns, ⟨rfl, rfl⟩, few, blames, same,
    advances, advances'⟩ := Grammar.exists_advances shown goesOn self.simple
  have read : parse line = (statements, errors) := by
    rw [self.parse_eq]
    apply parseTokens_of_advances rfl advances
    rw [length_append, length_singleton]
    omega
  obtain rfl := eq_map_of_forall₂ (same.imp fun _ _ first => first.eq_relocated)
  rw [read]
  exact ⟨found, turns, few, blames, advances'⟩

/-- Line `k` of a text ends in a line end, or else there are no tokens below. -/
def EndsBefore (textEnd : Position) (k : Nat) (line : String) (below : List String)
    (rest : List PlacedToken) : Prop :=
  headToken rest = .newline ∧ (headLoc rest).start = ⟨k + 1, line.length + 1⟩ ∨
    headToken rest = .eof ∧ (headLoc rest).start = textEnd ∧ ∀ other ∈ below, tokensIn other = []

variable {stops : isStop (headToken rest) = true}

theorem SelfContained.foundAgain {line : String} (self : SelfContained line) {textEnd : Position}
    {below : List String} {nonempty : rest ≠ []} (ends : EndsBefore textEnd k line below rest)
    {alone found : Diagnostic} (member : alone ∈ (parse line).2)
    (blames : (lineSplice line k rest nonempty stops).Blames alone found) :
    FoundAgain textEnd k line below alone found := by
  cases blames with
  | @same error loc _ placed =>
    obtain rfl := Option.some.inj placed
    refine ⟨⟨loc, loc.down k, rfl, rfl, .inl ?_⟩, .inl rfl⟩
    rw [Location.down, Position.down, self.line_eq_one member rfl, Nat.add_comm]
  | @stop error names _ rest isStop =>
    obtain ⟨before, isMessage⟩ := names
    obtain ⟨rfl, rfl⟩ := isStop
    rcases ends with ⟨isNewline, atEnd⟩ | ⟨isEof, atEnd, blank⟩
    · refine ⟨⟨_, _, rfl, rfl, .inl atEnd⟩, .inr ⟨before, isMessage .eof, ?_⟩⟩
      change (error (headToken rest)).message = _
      rw [isMessage, isNewline]
      rfl
    · refine ⟨⟨_, _, rfl, rfl, .inr ⟨rfl, atEnd, blank⟩⟩, .inl ?_⟩
      change (error (headToken rest)).message = (error .eof).message
      rw [isEof]

theorem SelfContained.foundAgain_all {line : String} (self : SelfContained line)
    {textEnd : Position} {below : List String} {nonempty : rest ≠ []}
    (ends : EndsBefore textEnd k line below rest) {found : List Diagnostic}
    (blames : Forall₂ (lineSplice line k rest nonempty stops).Blames (parse line).2 found) :
    Forall₂ (FoundAgain textEnd k line below) (parse line).2 found := by
  have members := (forall₂_and_left (p := (· ∈ (parse line).2)) _ _).mpr
    ⟨fun _ member => member, blames⟩
  exact members.imp fun _ _ both => self.foundAgain ends both.1 both.2

/-! ## Line after line -/

theorem tokensIn_eq_nil_of_laid {lines : List String} (each : ∀ line ∈ lines, SelfContained line)
    {tokens : List PlacedToken} (laid : Laid k (lines.map String.toList) tokens)
    (none : tokens = []) : ∀ line ∈ lines, tokensIn line = [] := by
  induction lines generalizing k with
  | nil => simp
  | cons line lines ih =>
    have self := each line mem_cons_self
    have restEach : ∀ later ∈ lines, SelfContained later :=
      fun later member => each later (mem_cons_of_mem _ member)
    rw [map_cons] at laid
    cases laid with
    | blank empty rest =>
      have blank : tokensIn line = [] := by
        rw [self.tokensIn_eq, empty]
        rfl
      exact forall_mem_cons.mpr ⟨blank, ih restEach rest⟩
    | last some rest => exact absurd (map_eq_nil_iff.mp none) some
    | line loc some rest more atEnd =>
      exact absurd (append_eq_nil_iff.mp none).2 (cons_ne_nil _ _)

theorem statementsByLine_cons (k : Nat) (line : String) (lines : List String) :
    statementsByLine k (line :: lines) =
      (parse line).1.map (Stmt.relocated (Location.down k)) ++ statementsByLine (k + 1) lines := by
  simp [statementsByLine]

theorem exists_foundByLine {lines : List String} (each : ∀ line ∈ lines, SelfContained line)
    {tokens : List PlacedToken} (laid : Laid k (lines.map String.toList) tokens)
    {last : PlacedToken} (isEof : last.token = .eof) :
    ∃ found turns, turns ≤ tokens.length ∧ FoundByLine last.loc.start k lines found ∧
      Advances (tokens ++ [last]) [last] (statementsByLine k lines) found.flatten turns := by
  induction lines generalizing k tokens with
  | nil =>
    cases laid
    exact ⟨[], 0, Nat.le_refl _, .nil k, .refl _⟩
  | cons line lines ih =>
    have self := each line mem_cons_self
    have restEach : ∀ later ∈ lines, SelfContained later :=
      fun later member => each later (mem_cons_of_mem _ member)
    rw [map_cons] at laid
    rw [statementsByLine_cons]
    cases laid with
    | blank empty rest =>
      obtain ⟨found, turns, few, foundRest, advances⟩ := ih restEach rest
      have nothing : parse line = ([], []) := by
        rw [self.parse_eq, empty]
        exact parseTokens_of_advances rfl (.refl [lineEnd line]) (Nat.zero_lt_one)
      refine ⟨[] :: found, turns, few, .cons ?_ foundRest, ?_⟩
      · rw [nothing]
        exact .nil
      · rw [nothing]
        exact advances
    | last some rest =>
      obtain ⟨found, turns, few, foundRest, advances⟩ := ih restEach rest
      have stops : isStop (headToken [last]) = true := isStop_eof isEof
      obtain ⟨here, turnsHere, fewHere, blames, advancesHere⟩ :=
        self.exists_advances some k (cons_ne_nil last []) stops
      have ends : EndsBefore last.loc.start k line lines [last] :=
        .inr ⟨isEof, rfl, tokensIn_eq_nil_of_laid restEach rest rfl⟩
      refine ⟨here :: found, turnsHere + turns, ?_, .cons ?_ foundRest, ?_⟩
      · rw [length_map]
        rw [length_nil] at few
        omega
      · exact self.foundAgain_all ends blames
      · exact advancesHere.trans advances
    | @line _ _ _ tokens loc some rest more atEnd =>
      obtain ⟨found, turns, few, foundRest, advances⟩ := ih restEach rest
      obtain ⟨here, turnsHere, fewHere, blames, advancesHere⟩ :=
        self.exists_advances some k (cons_ne_nil ⟨.newline, loc⟩ (tokens ++ [last])) rfl
      have passed : dropTerminators (⟨.newline, loc⟩ :: (tokens ++ [last])) =
          dropTerminators (tokens ++ [last]) := dropTerminators_cons rfl
      rw [String.length_toList] at atEnd
      have ends : EndsBefore last.loc.start k line lines
          (⟨.newline, loc⟩ :: (tokens ++ [last])) := .inl ⟨rfl, atEnd⟩
      refine ⟨here :: found, turnsHere + turns, ?_, .cons ?_ foundRest, ?_⟩
      · rw [length_append, length_map, length_cons]
        omega
      · exact self.foundAgain_all ends blames
      · rw [append_assoc, cons_append]
        exact (advancesHere.of_dropTerminators passed).trans advances

/-- The statements of a text are those of its lines, and so are its errors. -/
theorem parse_lines {lines : List String} (each : ∀ line ∈ lines, SelfContained line) :
    (parse ("\n".intercalate lines)).1 =
        (lines.zipIdx.flatMap fun entry =>
          (parse entry.1).1.map (Stmt.relocated (Location.down entry.2))) ∧
      ∃ found, (parse ("\n".intercalate lines)).2 = found.flatten ∧
        FoundByLine (positionAfter ("\n".intercalate lines).toList) 0 lines found := by
  have isText : ("\n".intercalate lines).toList = ['\n'].intercalate (lines.map String.toList) :=
    String.toList_intercalate
  generalize "\n".intercalate lines = text at isText ⊢
  have whole : ∀ line ∈ lines.map String.toList, IsWholeLine line :=
    List.forall_mem_map.mpr fun line member => (each line member).isWholeLine
  have noFault : ∀ error, .fault error ∉ kinds text.toList := by
    rw [isText]
    exact noFault_intercalate fun line member => (whole line member).noFault
  obtain ⟨tokens, laid, isStream⟩ := exists_laid_streamOf whole isText
  have read : parse text = parseTokens
      (tokens ++ [⟨.eof, ⟨positionAfter text.toList, positionAfter text.toList⟩⟩]) := by
    rw [parse_eq_parseChars, parseChars]
    dsimp only
    rw [faultsOf_eq_nil_iff.mpr noFault]
    dsimp only
    rw [isStream]
  generalize isLast : PlacedToken.mk .eof ⟨positionAfter text.toList, positionAfter text.toList⟩ =
    last at read
  obtain ⟨found, turns, few, foundByLine, advances⟩ :=
    exists_foundByLine each laid (show last.token = .eof by rw [← isLast])
  have parsed : parse text = (statementsByLine 0 lines, found.flatten) := by
    rw [read]
    apply parseTokens_of_advances (by rw [← isLast]) advances
    rw [List.length_append, List.length_singleton]
    omega
  rw [parsed]
  refine ⟨rfl, found, rfl, ?_⟩
  rw [← isLast] at foundByLine
  exact foundByLine

/-- Lines that break in every way: a stray word that closes a block, a stray bracket, a missing
name and a missing condition. -/
def brokenLines : List String :=
  ["a = ON end", "b = )", "", "use", "c = d", "e = f if", "// the end"]

theorem parse_lines_brokenLines :
    (∀ line ∈ brokenLines, SelfContained line) ∧
      (parse ("\n".intercalate brokenLines)).1 =
        (brokenLines.zipIdx.flatMap fun entry =>
          (parse entry.1).1.map (Stmt.relocated (Location.down entry.2))) ∧
      ∃ found, (parse ("\n".intercalate brokenLines)).2 = found.flatten ∧
        FoundByLine (positionAfter ("\n".intercalate brokenLines).toList) 0 brokenLines found :=
  ⟨by decide +kernel, parse_lines (by decide +kernel)⟩

/-- Below an empty line the end of the input is no longer on the line that breaks off. -/
theorem parse_lines_emptyLineBelow :
    (∀ line ∈ ["use", ""], SelfContained line) ∧
      (parse "use").2.map Diagnostic.location = [some ⟨⟨1, 4⟩, ⟨1, 4⟩⟩] ∧
      (parse ("\n".intercalate ["use", ""])).2.map Diagnostic.location =
        [some ⟨⟨2, 1⟩, ⟨2, 1⟩⟩] := by
  refine ⟨by decide +kernel, ?_, ?_⟩
  · rw [parse_eq_parseChars]
    decide +kernel
  · rw [parse_eq_parseChars, String.toList_intercalate]
    decide +kernel

end AutomationScript
