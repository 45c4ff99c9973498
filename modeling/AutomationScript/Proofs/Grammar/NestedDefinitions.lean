import AutomationScript.Proofs.Grammar.Chars
import AutomationScript.Proofs.Grammar.Concatenation
import AutomationScript.Proofs.Grammar.MirrorLines

/-!
# Definitions inside of bodies

A definition inside of a body is refused after it has been read to the end of its line, and the
parser then skips the statement that follows.  If this is a statement without a body, nothing else
goes wrong (`Forms.begins`).  If it is a block, its `end` closes the body that the definition
stands in, so that more errors follow.
-/

namespace AutomationScript

open List AutomationScript.Reader AutomationScript.Parser

namespace Grammar

/-! ## Recovery -/

def stopsRecovery (token : Token) : Bool :=
  isStop token || [Token.endWord, .elseWord].contains token

theorem stopsRecovery_of_staysInStatement {token : Token} (stays : staysInStatement token = true) :
    stopsRecovery token = false := by
  cases token <;> first | rfl | cases stays

/-- The tokens define an expression, and a terminator ends them. -/
inductive DefinesExpr : List Token → Prop
  | intro (word : String) {written : List Token} {e : Expr} {mark : Token} :
      Derives .disjunction written e → isTerminator mark = true →
      DefinesExpr (.defWord :: .ident word :: .eq :: (written ++ [mark]))

section Refusal

variable {line tokens marks others : List Token} {follow : Token → Prop} {session : Session}
  {rest : List PlacedToken}

theorem Ends.stopsRecovery (ends : Ends marks follow) {t : Token} (opened : opens marks follow t) :
    stopsRecovery t = true := by
  cases ends with
  | mark terminates =>
    cases opened
    cases t <;> first | rfl | cases terminates
  | closing closes =>
    have closed := closes t opened
    cases t <;> first | rfl | cases closed

theorem Ends.dropTerminators_eq (ends : Ends marks follow)
    (before : Before session marks follow rest) :
    dropTerminators session.tokens = dropTerminators rest := by
  obtain ⟨taken, whole, isTaken⟩ := before.taken
  rw [show session.tokens = taken ++ rest from whole]
  cases ends with
  | mark terminates =>
    obtain ⟨placed, rfl, rfl⟩ := map_eq_singleton_iff.mp isTaken
    exact dropTerminators_cons terminates
  | closing _ =>
    obtain rfl := map_eq_nil_iff.mp isTaken
    rfl

theorem dropWhile_stays (stay : tokens.all staysInStatement = true)
    (before : Before session tokens (fun t => stopsRecovery t = true) rest) :
    session.tokens.dropWhile (fun placed => !stopsRecovery placed.token) = rest := by
  obtain ⟨some, stops, taken, whole, rfl⟩ := before
  have each : ∀ placed ∈ taken, (!stopsRecovery placed.token) = true := by
    intro placed member
    have stays := all_eq_true.mp stay placed.token (mem_map_of_mem member)
    rw [stopsRecovery_of_staysInStatement stays]
    rfl
  obtain ⟨first, rest, rfl⟩ := exists_cons_of_ne_nil some
  have stops : stopsRecovery first.token = true := stops
  rw [show session.tokens = taken ++ first :: rest from whole, dropWhile_append_of_pos each,
    dropWhile_cons_of_neg]
  simp [stops]

/-- In a body a definition is read and refused. -/
theorem DefinesExpr.refused (defines : DefinesExpr line)
    (before : Before session line follow rest) (block : Parser (List Stmt)) :
    ∃ d session', statement block false session = .error d session' ∧ session'.tokens = rest ∧
      Cursor.messages session' = Cursor.messages session ∧
      d.message = "Macros can only be defined at the top level" := by
  obtain ⟨word, derives, terminates⟩ := defines
  obtain ⟨_, session', ran, isRest, told, _⟩ :=
    (accepts_defineExpr word derives (.mark terminates follow) : Accepts (definition block) _ _ _ _)
      session rest before
  obtain ⟨stream, errors⟩ := session
  obtain ⟨taken, isStream, isTaken⟩ := before.taken
  obtain ⟨⟨_, loc⟩, _, rfl, rfl, _⟩ := map_eq_cons_iff.mp isTaken
  obtain rfl : stream = _ := isStream
  refine ⟨⟨.grammar .nestedDefinition, some loc⟩, session', ?_, isRest,
    told.trans (append_nil _), rfl⟩
  change EStateM.bind (definition block) (fun _ => liftReader (fail .nestedDefinition loc)) _ = _
  rw [EStateM.bind, ran]
  rfl

/-- After a refusal the next statement is skipped, with its end, and the others are read. -/
theorem DefinesExpr.accepted {s : Stmt} {statements : List Stmt} (defines : DefinesExpr line)
    (simple : Simple tokens s)
    (ends : ∀ follow, (∀ t, follow t → closesBlock t = true) → Ends marks (opens others follow))
    (accepted : (Role.statements false).Accepted others statements []) :
    (Role.statements false).Accepted (line ++ (tokens ++ (marks ++ others))) statements
      ["Macros can only be defined at the top level"] := by
  intro depth fuel follow enough deep closed
  have ends := ends follow closed
  have someLine : 0 < line.length := by
    cases defines
    exact Nat.succ_pos _
  simp only [length_append] at enough
  obtain ⟨less, rfl⟩ : ∃ less, fuel = less + 1 := ⟨fuel - 1, by omega⟩
  rintro ⟨stream, reported⟩ rest before
  obtain ⟨afterLine, beforeLine, inBody⟩ := before.split
  obtain ⟨d, ⟨_, errors⟩, refused, rfl, told, isRefusal⟩ :=
    defines.refused beforeLine (blockBody less)
  obtain ⟨afterTokens, beforeTokens, atMarks⟩ := (inBody ⟨_, errors⟩ rfl).split
  obtain ⟨afterMarks, beforeMarks, atOthers⟩ := (atMarks ⟨afterTokens, errors ++ [d]⟩ rfl).split
  obtain ⟨values, session', ran, isRest, toldMore, isValues⟩ :=
    accepted depth less follow (by omega) (by omega) closed ⟨afterMarks, errors ++ [d]⟩ rest
      (atOthers _ rfl)
  have isHead : headToken stream = .defWord := by
    cases defines
    exact before.opens
  have goesOn : dropTerminators stream = stream := dropTerminators_of_not (by rw [isHead]; rfl)
  have skipped : List.dropWhile (fun placed => !stopsRecovery placed.token) _ = afterTokens :=
    dropWhile_stays simple.all_stay
      ⟨beforeTokens.some, ends.stopsRecovery beforeMarks.opens, beforeTokens.taken⟩
  have same : dropTerminators (dropTerminators afterTokens) = dropTerminators afterMarks :=
    (dropTerminators_dropTerminators _).trans (ends.dropTerminators_eq beforeMarks)
  refine ⟨[] ++ values, session', ?_, isRest, ?_, isValues⟩
  · rw [statementList_succ, gather_of_not_closes (by rw [goesOn, isHead]; decide), goesOn]
    refine run_bind_eq_ok_iff.mpr ⟨[], ⟨dropTerminators afterTokens, errors ++ [d]⟩, ?_,
      run_bind_eq_ok_iff.mpr ⟨values, session', ?_, rfl⟩⟩
    · rw [← skipped]
      exact orRecover_of_error refused
    -- Recovery has skipped the terminators that the loop would skip.
    · obtain ⟨fewer, rfl⟩ : ∃ fewer, less = fewer + 1 := ⟨less - 1, by omega⟩
      rw [statementList_succ, gather_congr same, ← statementList_succ]
      exact ran
  · rw [toldMore, ← told, ← isRefusal]
    simp [Cursor.messages]

end Refusal

/-! ## Places in bodies -/

/-- The tokens begin with a statement without a body. -/
def StartsWith (tokens : List Token) (s : Stmt) : Prop :=
  ∃ first, first <+: tokens ∧ Simple first s

theorem StartsWith.append {tokens : List Token} {s : Stmt} (starts : StartsWith tokens s)
    (more : List Token) : StartsWith (tokens ++ more) s := by
  obtain ⟨first, isFirst, simple⟩ := starts
  exact ⟨first, isFirst.trans (prefix_append _ _), simple⟩

/-- In this role the tokens before a place and after it are statements, and `lost` begins at the
place.  If a definition is put there, all statements but this one are read. -/
structure Begins (lost : Stmt) (role : Role) (front back : List Token)
    (statements remaining : List Stmt) : Prop where
  starts : StartsWith back lost
  loses : LosesOne lost statements remaining
  refuses : ∀ {line}, DefinesExpr line → role.Accepted (front ++ (line ++ back)) remaining
    ["Macros can only be defined at the top level"]

section Places

variable {role : Role} {tokens front back : List Token} {statements remaining : List Stmt}
  {topLevel : Bool} {lost : Stmt} {mark : Token}

theorem Begins.skip (begins : Begins lost (.statements topLevel) front back statements remaining)
    (terminates : isTerminator mark = true) :
    Begins lost (.statements topLevel) (mark :: front) back statements remaining :=
  ⟨begins.starts, begins.loses, fun defines => accepted_skip terminates (begins.refuses defines)⟩

theorem Begins.later (begins : Begins lost (.statements topLevel) front back statements remaining)
    {first : List Stmt} (forms : Forms (.statement topLevel) tokens first)
    (terminates : isTerminator mark = true) :
    Begins lost (.statements topLevel) (tokens ++ mark :: front) back (first ++ statements)
      (first ++ remaining) := by
  refine ⟨begins.starts, begins.loses.after first, fun defines => ?_⟩
  rw [append_assoc]
  exact accepted_cons forms.accepted terminates (begins.refuses defines)

theorem Forms.exists_simple (forms : Forms (.statement false) tokens statements)
    (starts : startsSimple (headOf tokens) = true) : ∃ s, statements = [s] ∧ Simple tokens s := by
  cases forms with
  | simple _ simple => exact ⟨_, rfl, simple⟩
  | _ => cases starts

/-- A statement without a body with which a body begins.  On the top level no block is open. -/
theorem Forms.begins_here {topLevel : Bool} {nesting : Nesting}
    (forms : Forms (.statements topLevel) tokens statements)
    (starts : startsSimple (headOf tokens) = true)
    (outermost : Role.statements topLevel = .statements true → nesting.blocks = [])
    (inside : nesting.blocks.head? = some .statements) :
    ∃ lost remaining, Begins lost (.statements topLevel) [] tokens statements remaining := by
  cases topLevel with
  | true =>
    rw [outermost rfl] at inside
    cases inside
  | false =>
    cases forms with
    | nil => cases starts
    | skip terminates _ =>
      exact absurd starts (Bool.eq_false_iff.mp (startsSimple_of_isTerminator terminates))
    | last forms =>
      obtain ⟨s, rfl, simple⟩ := forms.exists_simple starts
      refine ⟨s, [], ⟨_, prefix_rfl, simple⟩, .here [], fun {line} defines => ?_⟩
      have accepted : (Role.statements false).Accepted (line ++ (_ ++ ([] ++ []))) [] _ :=
        defines.accepted simple (fun _ closes => .closing closes) (Forms.nil false).accepted
      rwa [append_nil, append_nil] at accepted
    | cons forms terminates moreForms =>
      have startsFirst :=
        startsSimple_of_append starts (startsSimple_of_isTerminator terminates)
      obtain ⟨s, rfl, simple⟩ := forms.exists_simple startsFirst
      exact ⟨s, _, ⟨_, prefix_append _ _, simple⟩, .here _, fun defines =>
        defines.accepted simple (fun _ _ => .mark terminates _) moreForms.accepted⟩

/-- After a terminator the place is right there, or further on. -/
theorem Forms.begins_after {first : Token} {nesting : Nesting}
    (forms : Forms (.statements topLevel) tokens statements)
    (whole : first :: tokens = front ++ mark :: back) (ends : isTerminator first = true)
    (starts : startsSimple (headOf back) = true)
    (outermost : Role.statements topLevel = .statements true → nesting.blocks = [])
    (inside : (front.foldl Nesting.step nesting).blocks.head? = some .statements)
    (further : ∀ inner, tokens = inner ++ mark :: back →
      (inner.foldl Nesting.step nesting).blocks.head? = some .statements →
      ∃ lost remaining, Begins lost (.statements topLevel) (inner ++ [mark]) back statements
        remaining) :
    ∃ lost remaining inner, front ++ [mark] = first :: inner ∧
      Begins lost (.statements topLevel) inner back statements remaining := by
  cases front with
  | nil =>
    injection whole with isMark isBack
    subst isMark isBack
    obtain ⟨lost, remaining, begins⟩ := forms.begins_here starts outermost inside
    exact ⟨lost, remaining, [], rfl, begins⟩
  | cons token inner =>
    injection whole with isFirst isRest
    subst isFirst
    rw [foldl_cons, blocks_step_of_isTerminator ends] at inside
    obtain ⟨lost, remaining, begins⟩ := further inner isRest inside
    exact ⟨lost, remaining, _, rfl, begins⟩

theorem Forms.startsSimple_other {condition : Expr} {other : List Token} {more : List Stmt}
    (forms : Forms (.otherwise condition) other more) :
    startsSimple (headOf (other ++ [.endWord])) = false := by
  cases forms <;> rfl

/-- In what the rules form, a statement without a body begins wherever one can begin after a
terminator and the innermost block holds statements. -/
theorem Forms.begins (forms : Forms role tokens statements) {mark : Token} {nesting : Nesting}
    (whole : tokens = front ++ mark :: back) (terminates : isTerminator mark = true)
    (starts : startsSimple (headOf back) = true)
    (outermost : role = .statements true → nesting.blocks = [])
    (inside : (front.foldl Nesting.step nesting).blocks.head? = some .statements) :
    ∃ lost remaining, Begins lost role (front ++ [mark]) back statements remaining := by
  induction forms generalizing front back nesting with
  | simple topLevel simple =>
    exact absurd (by simp [whole]) (not_mem_of_stays simple.all_stay terminates)
  | triggerBlock topLevel isCondition listing _ =>
    rw [innermost_triggerBlock isCondition listing whole terminates nesting] at inside
    cases inside
  | @conditionBlock topLevel head body other condition statements more derives bodyForms
      otherForms bodyIh otherIh =>
      have opened : (.ifWord :: head ++ [.thenWord]) ++ (body ++ (other ++ [.endWord])) =
          front ++ mark :: back := by
        rw [← whole]
        simp
      have absent : mark ∉ .ifWord :: head ++ [.thenWord] :=
        not_mem_opening rfl derives.all_stay rfl terminates
      obtain ⟨inner, rfl, isBody⟩ := exists_front opened absent
      rw [foldl_append] at inside
      rcases front_or_back isBody with ⟨after, rfl, rfl⟩ | ⟨inOther, rfl, isOther⟩
      · have startsInner := startsSimple_of_append starts otherForms.startsSimple_other
        obtain ⟨lost, remaining, begins⟩ :=
          bodyIh rfl startsInner (fun same => by cases same) inside
        refine ⟨lost, _, begins.starts.append _, .later _ (begins.loses.before _),
          fun defines => ?_⟩
        have both := accepted_conditionBlock topLevel derives (begins.refuses defines)
          otherForms.accepted
        simpa only [append_assoc, cons_append, nil_append, append_nil] using both
      · obtain ⟨after, rfl, rfl⟩ := exists_back isOther (not_mem_end terminates)
        rw [foldl_append] at inside
        have startsInner := startsSimple_of_append starts rfl
        obtain ⟨lost, remaining, begins⟩ :=
          otherIh rfl startsInner (fun same => by cases same) inside
        refine ⟨lost, _, begins.starts.append _, .later _ ((begins.loses.before _).after _),
          fun defines => ?_⟩
        have both := accepted_conditionBlock topLevel derives bodyForms.accepted
          (begins.refuses defines)
        simpa only [append_assoc, cons_append, nil_append] using both
  | @defineExpr name tokens value derives =>
    have notValue := not_mem_of_stays derives.all_stay terminates
    have member : mark ∈ .defWord :: .ident name :: .eq :: tokens := by simp [whole]
    simp only [mem_cons] at member
    rcases member with rfl | rfl | rfl | inValue
    · cases terminates
    · cases terminates
    · cases terminates
    · exact absurd inValue notValue
  | @defineBlock name body statements bodyForms ih =>
    have opened : [.defWord, .ident name, .doWord] ++ (body ++ [.endWord]) =
        front ++ mark :: back := whole
    have absent : mark ∉ [.defWord, .ident name, .doWord] := by
      simp only [mem_cons, not_mem_nil, or_false]
      rintro (rfl | rfl | rfl) <;> cases terminates
    obtain ⟨inner, rfl, isBody⟩ := exists_front opened absent
    obtain ⟨after, rfl, rfl⟩ := exists_back isBody (not_mem_end terminates)
    have startsInner := startsSimple_of_append starts rfl
    obtain ⟨lost, remaining, begins⟩ := ih rfl startsInner (fun same => by cases same) inside
    refine ⟨lost, _, begins.starts.append _, .inside _ _ [] begins.loses, fun defines => ?_⟩
    have read := accepted_defineBlock name (begins.refuses defines)
    simpa only [append_assoc, cons_append, nil_append] using read
  | noOther condition => simp at whole
  | @other condition body statements bodyForms ih =>
    have opened : [.elseWord] ++ body = front ++ mark :: back := whole
    have absent : mark ∉ [.elseWord] := by
      simp only [mem_singleton]
      rintro rfl
      cases terminates
    obtain ⟨inner, rfl, rfl⟩ := exists_front opened absent
    obtain ⟨lost, remaining, begins⟩ := ih rfl starts (fun same => by cases same) inside
    exact ⟨lost, _, begins.starts, .later _ (.later _ begins.loses),
      fun defines => accepted_other condition (begins.refuses defines)⟩
  | nil topLevel => simp at whole
  | @skip topLevel mark' tokens statements terminates' forms ih =>
    obtain ⟨lost, remaining, inner, isFront, begins⟩ :=
      forms.begins_after whole terminates' starts outermost inside fun _ isRest inside =>
        ih isRest starts outermost inside
    rw [isFront]
    exact ⟨lost, remaining, begins.skip terminates'⟩
  | last _ ih =>
    obtain ⟨lost, remaining, begins⟩ := ih whole starts (fun same => by cases same) inside
    exact ⟨lost, remaining, begins.starts, begins.loses,
      fun defines => accepted_last (begins.refuses defines)⟩
  | @cons topLevel mark' tokens more statements rest forms terminates' moreForms firstIh moreIh =>
    rcases front_or_back whole with ⟨after, rfl, rfl⟩ | ⟨inner, rfl, isMore⟩
    · have startsInner :=
        startsSimple_of_append starts (startsSimple_of_isTerminator terminates')
      obtain ⟨lost, remaining, begins⟩ :=
        firstIh rfl startsInner (fun same => by cases same) inside
      refine ⟨lost, _, begins.starts.append _, begins.loses.before _, fun defines => ?_⟩
      have both := accepted_cons (begins.refuses defines) terminates' moreForms.accepted
      simpa only [append_assoc, append_nil] using both
    · -- The statement before has closed its blocks.
      have closed := forms.blocks_foldl nesting
      rw [foldl_append] at inside
      rw [← closed] at outermost
      obtain ⟨lost, remaining, later, isFront, begins⟩ :=
        moreForms.begins_after isMore terminates' starts outermost inside fun _ isRest inside =>
          moreIh isRest starts outermost inside
      rw [append_assoc, isFront]
      exact ⟨lost, _, begins.later forms terminates'⟩

end Places

theorem Forms.exists_defineExpr {tokens : List Token} {name : Ident} {value : Expr} {tag : Tag}
    (forms : Forms (.statements true) tokens [.defineExpr name value tag])
    (unended : ∀ token ∈ tokens, isTerminator token = false) :
    ∃ word written e, tokens = .defWord :: .ident word :: .eq :: written ∧
      Derives .disjunction written e := by
  have goesOn : ∀ {mark}, isTerminator mark = true → mark ∉ tokens := by
    intro mark terminates member
    rw [unended mark member] at terminates
    cases terminates
  generalize isStatements : [Stmt.defineExpr name value tag] = statements at forms
  cases forms with
  | nil => cases isStatements
  | skip terminates _ => exact absurd mem_cons_self (goesOn terminates)
  | cons _ terminates _ =>
    exact absurd (mem_append_right _ mem_cons_self) (goesOn terminates)
  | last forms =>
    cases forms with
    | simple _ simple =>
      cases isStatements
      cases simple
    | defineExpr word derives => exact ⟨word, _, _, rfl, derives⟩
    | _ => cases isStatements

end Grammar

/-! ## Lines of text -/

open Grammar

/-- Between the texts a line begins in a body, and with it a statement that has no body itself. -/
structure StatementLine (above below : String) : Prop where
  outside : (tokensIn above).foldl StreamState.depthAfter 0 = 0
  ended : ∃ last ∈ (tokensIn above).getLast?, last.asksForMore = false ∨ last = .semicolon
  inside : innermost? (tokensIn above) = some .statements
  starts : startsSimple (headOf (tokensIn below)) = true

def Stmt.definesExpr : Stmt → Bool
  | .defineExpr _ _ _ => true
  | _ => false

/-- The line is on its own read as one definition of an expression, and a line break ends it. -/
structure DefinitionLine (line : String) : Prop where
  noErrors : (parse line).2 = []
  defines : (parse line).1.map Stmt.definesExpr = [true]
  unended : ∀ token ∈ tokensIn line, isTerminator token = false
  ends : (tokensIn line).getLast? ≠ some .star

theorem continuesLine_of_startsSimple {token : Token} (starts : startsSimple token = true) :
    token.continuesLine = false := by
  cases token <;> first | rfl | cases starts

theorem tokensIn_append_of_starts {front back : String}
    (noFault : ∀ error, .fault error ∉ kinds front.toList)
    (noFaultBack : ∀ error, .fault error ∉ kinds back.toList)
    (outside : (tokensIn front).foldl StreamState.depthAfter 0 = 0) (some : tokensIn back ≠ [])
    (starts : (headOf (tokensIn back)).continuesLine = false) :
    (∀ error, .fault error ∉ kinds (front ++ "\n" ++ back).toList) ∧
      tokensIn (front ++ "\n" ++ back) =
        tokensIn front ++ (markAfter (tokensIn front) ++ tokensIn back) := by
  have startsFirst : ∀ t ∈ (tokensIn back).head?, t.continuesLine = false := by
    intro t isFirst
    rwa [headOf, headD_eq_head?_getD, Option.mem_def.mp isFirst] at starts
  have appended := tokensIn_append noFault noFaultBack outside startsFirst
  rwa [if_neg some] at appended

namespace StatementLine

variable {above below : String}

theorem some_above (begins : StatementLine above below) : tokensIn above ≠ [] := by
  obtain ⟨last, isLast, _⟩ := begins.ended
  exact ne_nil_of_mem (mem_of_getLast? isLast)

theorem some_below (begins : StatementLine above below) : tokensIn below ≠ [] := by
  intro nothing
  have starts := begins.starts
  rw [nothing] at starts
  cases starts

/-- The tokens before a line of a body end with a terminator, before which the same blocks are
open. -/
theorem exists_mark (begins : StatementLine above below) :
    ∃ front mark, tokensIn above ++ markAfter (tokensIn above) = front ++ [mark] ∧
      isTerminator mark = true ∧ innermost? front = some .statements := by
  obtain ⟨last, isLast, ended⟩ := begins.ended
  have inside := begins.inside
  rw [markAfter, isLast]
  rcases ended with closed | rfl
  · refine ⟨tokensIn above, .newline, ?_, rfl, inside⟩
    rw [Option.any_some, closed]
    rfl
  · obtain ⟨front, isFront⟩ := getLast?_eq_some_iff.mp isLast
    refine ⟨front, .semicolon, (append_nil _).trans isFront, rfl, ?_⟩
    rw [isFront, innermost?, foldl_append] at inside
    exact inside

end StatementLine

namespace DefinitionLine

variable {line : String}

theorem parsed (defines : DefinitionLine line) : parse line = ((parse line).1, []) :=
  Prod.ext rfl defines.noErrors

theorem noFault (defines : DefinitionLine line) (error : LexicalError) :
    .fault error ∉ kinds line.toList :=
  noFault_of_parse defines.parsed error

theorem closed (defines : DefinitionLine line) : Closed (tokensIn line) := by
  obtain ⟨front, last, isFront, isEof, noEof, parsed⟩ := exists_parseTokens_of_parse defines.parsed
  rw [← isFront]
  exact closed_of_parsed noEof isEof parsed

theorem exists_tokens (defines : DefinitionLine line) :
    ∃ word written e, tokensIn line = .defWord :: .ident word :: .eq :: written ∧
      Derives .disjunction written e := by
  obtain ⟨front, last, isFront, isEof, noEof, parsed⟩ := exists_parseTokens_of_parse defines.parsed
  have forms := forms_of_parsed noEof isEof parsed
  obtain ⟨s, isProgram, isDefinition⟩ := map_eq_singleton_iff.mp defines.defines
  rw [isFront, isProgram] at forms
  cases s with
  | defineExpr name value tag => exact forms.exists_defineExpr defines.unended
  | _ => cases isDefinition

theorem markAfter_eq (defines : DefinitionLine line) : markAfter (tokensIn line) = [.newline] := by
  obtain ⟨word, written, e, isLine, _⟩ := defines.exists_tokens
  have some : tokensIn line ≠ [] := isLine ▸ cons_ne_nil _ _
  have isLast := getLast?_eq_some_getLast some
  have unended := defines.unended _ (getLast_mem some)
  rw [markAfter, isLast]
  cases asks : ((tokensIn line).getLast some).asksForMore with
  | false => rw [Option.any_some, asks]; rfl
  | true =>
    rcases eq_star_or_isTerminator asks (defines.closed.last _ isLast) with star | terminates
    · exact absurd (isLast.trans (congrArg Option.some star)) defines.ends
    · rw [terminates] at unended
      cases unended

end DefinitionLine

/-- If a line with a definition is put into a body before a statement that has no body itself, the
refusal of the definition is the only error.  This statement is lost, and all others are read. -/
theorem parse_nestedDefinition
    {above line below : String} {program : List Stmt}
    (parsed : parse (above ++ "\n" ++ below) = (program, []))
    (begins : StatementLine above below) (defines : DefinitionLine line) :
    ∃ program' refusal lost tokens,
      parse (above ++ "\n" ++ line ++ "\n" ++ below) = (program', [refusal]) ∧
        refusal.message = "Macros can only be defined at the top level" ∧
        tokens <+: tokensIn below ∧ Simple tokens lost ∧
        LosesOne lost (program.map Stmt.unlocated) (program'.map Stmt.unlocated) := by
  have noFaultAbove := noFault_of_tokensIn begins.some_above
  have noFaultBelow := noFault_of_tokensIn begins.some_below
  have startsBelow := continuesLine_of_startsSimple begins.starts
  obtain ⟨front, mark, isFront, terminates, inside⟩ := begins.exists_mark
  obtain ⟨word, written, e, isLine, derives⟩ := defines.exists_tokens
  -- The tokens without the line are statements, and one of them begins at the place.
  obtain ⟨_, tokens⟩ :=
    tokensIn_append_of_starts noFaultAbove noFaultBelow begins.outside begins.some_below startsBelow
  obtain ⟨stream, final, isStream, isEof, noEof, streamParsed⟩ := exists_parseTokens_of_parse parsed
  have forms := forms_of_parsed noEof isEof streamParsed
  rw [isStream, tokens, ← List.append_assoc, isFront, List.append_assoc] at forms
  obtain ⟨lost, remaining, place⟩ :=
    forms.begins rfl terminates begins.starts (fun _ => rfl) inside
  obtain ⟨first, isFirst, simple⟩ := place.starts
  -- The tokens with the line are the same but for the definition and the line break after it.
  obtain ⟨noFaultLine, lineTokens⟩ := tokensIn_append_of_starts defines.noFault noFaultBelow
    (defines.closed.neutral 0) begins.some_below startsBelow
  rw [defines.markAfter_eq, ← List.append_assoc, isLine] at lineTokens
  have someLine : tokensIn (line ++ "\n" ++ below) ≠ [] := lineTokens ▸ List.cons_ne_nil _ _
  have startsLine : (headOf (tokensIn (line ++ "\n" ++ below))).continuesLine = false := by
    rw [lineTokens]
    rfl
  obtain ⟨noFault, wholeTokens⟩ :=
    tokensIn_append_of_starts noFaultAbove noFaultLine begins.outside someLine startsLine
  rw [← List.append_assoc, isFront, lineTokens] at wholeTokens
  obtain ⟨whole, isWhole, read⟩ := parse_eq_parseTokens noFault
  obtain ⟨all, last, rfl, isAll, isLast⟩ := exists_front_of_tokensOf isWhole
  have accepted : (Role.statements true).Accepted (tokensOf all) remaining
      ["Macros can only be defined at the top level"] := by
    rw [isAll, wholeTokens]
    exact place.refuses (.intro word derives (rfl : isTerminator .newline = true))
  obtain ⟨program', errors, parsed', rfl, told⟩ := accepted.parseTokens_eq isLast
  obtain ⟨refusal, rfl, message⟩ := List.map_eq_singleton_iff.mp told
  refine ⟨program', refusal, lost, first, ?_, message, isFirst, simple, place.loses⟩
  rw [← parsed', ← read]
  simp only [String.append_assoc]

/-- The definition stands before the first of two statements. -/
theorem parse_nestedDefinition_firstLine :
    ∃ program program' refusal lost tokens,
      parse ("if a then" ++ "\n" ++ "  b = c\n  d = e\nend") = (program, []) ∧
        parse ("if a then" ++ "\n" ++ "  def X = a" ++ "\n" ++ "  b = c\n  d = e\nend") =
          (program', [refusal]) ∧
        refusal.message = "Macros can only be defined at the top level" ∧
        tokens <+: tokensIn "  b = c\n  d = e\nend" ∧ Simple tokens lost ∧
        LosesOne lost (program.map Stmt.unlocated) (program'.map Stmt.unlocated) := by
  have parsed : parse ("if a then" ++ "\n" ++ "  b = c\n  d = e\nend") =
      ((parse ("if a then" ++ "\n" ++ "  b = c\n  d = e\nend")).1, []) := by
    refine Prod.ext rfl ?_
    simp only [parse_eq_parseChars, String.toList_append]
    decide +kernel
  have begins : StatementLine "if a then" "  b = c\n  d = e\nend" :=
    ⟨by decide +kernel, ⟨.thenWord, by decide +kernel, .inl rfl⟩, by decide +kernel,
      by decide +kernel⟩
  have defines : DefinitionLine "  def X = a" := by
    constructor
    · rw [parse_eq_parseChars]
      decide +kernel
    · rw [parse_eq_parseChars]
      decide +kernel
    · decide +kernel
    · decide +kernel
  obtain ⟨program', refusal, lost, tokens, result⟩ := parse_nestedDefinition parsed begins defines
  exact ⟨_, program', refusal, lost, tokens, parsed, result⟩

/-- Before a block the definition makes more errors: the `end` of the block closes the body. -/
theorem parse_nestedDefinition_beforeBlock :
    (parse ("if a then" ++ "\n" ++ "  if b then\n    c = d\n  end\nend")).2 = [] ∧
      innermost? (tokensIn "if a then") = some .statements ∧
      (parse "  def X = a").2 = [] ∧
      (parse ("if a then" ++ "\n" ++ "  def X = a" ++ "\n" ++
          "  if b then\n    c = d\n  end\nend")).2 =
        [⟨.grammar .nestedDefinition, some ⟨⟨2, 3⟩, ⟨2, 6⟩⟩⟩,
          ⟨.grammar (.unexpectedToken .endWord), some ⟨⟨6, 1⟩, ⟨6, 4⟩⟩⟩] := by
  simp only [parse_eq_parseChars, String.toList_append]
  decide +kernel

end AutomationScript
