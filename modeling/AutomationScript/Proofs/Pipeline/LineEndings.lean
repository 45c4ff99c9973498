import AutomationScript.Proofs.Grammar.MirrorScripts
import AutomationScript.Proofs.Pipeline.Unlocated
import AutomationScript.Proofs.Token.Spans

/-!
# Line endings

A script that writes every line feed with a carriage return before it has the same tokens, and what
comes of it is the same but for the places that errors name (`compile_withReturns`).  Text in braces
is the exception: the carriage returns become part of it.
-/

namespace AutomationScript

open List Scanner

/-! ## Carriage returns -/

/-- The text with a carriage return before every line feed. -/
def withReturns (chars : List Char) : List Char :=
  chars.flatMap fun c => if c = '\n' then ['\r', '\n'] else [c]

theorem withReturns_append (front back : List Char) :
    withReturns (front ++ back) = withReturns front ++ withReturns back :=
  flatMap_append

theorem withReturns_cons {c : Char} (goesOn : c ≠ '\n') (rest : List Char) :
    withReturns (c :: rest) = c :: withReturns rest := by
  rw [withReturns, flatMap_cons, if_neg goesOn]
  rfl

theorem withReturns_of_oneLine {line : List Char} (oneLine : '\n' ∉ line) :
    withReturns line = line := by
  induction line with
  | nil => rfl
  | cons c rest ih =>
    rw [withReturns_cons fun same => oneLine (same ▸ mem_cons_self),
      ih fun member => oneLine (mem_cons_of_mem c member)]

theorem brokenOff_withReturns (text : List Char) : BrokenOff text (withReturns text) := by
  intro word oneLine begins
  induction text generalizing word with
  | nil => exact begins
  | cons c rest ih =>
    cases word with
    | nil => exact nil_prefix
    | cons first word =>
      obtain ⟨goesOn, others⟩ := forall_mem_cons.mp oneLine
      by_cases isFeed : c = '\n'
      · subst isFeed
        obtain rfl : first = '\r' := (cons_prefix_cons.mp begins).1
        cases goesOn
      · rw [withReturns_cons isFeed] at begins
        obtain ⟨rfl, goOn⟩ := cons_prefix_cons.mp begins
        exact cons_prefix_cons.mpr ⟨rfl, ih word others goOn⟩

theorem dropWhile_withReturns (chars : List Char) :
    (withReturns chars).dropWhile isLineBreak = withReturns (chars.dropWhile isLineBreak) := by
  induction chars with
  | nil => rfl
  | cons c rest ih =>
    by_cases isFeed : c = '\n'
    · subst isFeed
      exact ih
    · rw [withReturns_cons isFeed, dropWhile_cons, dropWhile_cons, ih]
      split
      · rfl
      · exact (withReturns_cons isFeed rest).symm

/-! ## Pieces -/

theorem kinds_returnFeed (rest : List Char) :
    kinds ('\r' :: '\n' :: rest) = kinds ('\n' :: rest) := by
  rw [kinds_lineBreak rfl, kinds_lineBreak rfl]
  rfl

theorem kinds_dropWhile_withReturns (chars : List Char) :
    kinds ((withReturns chars).dropWhile (· != '\n')) =
      kinds (withReturns (chars.dropWhile (· != '\n'))) := by
  induction chars with
  | nil => rfl
  | cons c rest ih =>
    by_cases isFeed : c = '\n'
    · subst isFeed
      exact (kinds_returnFeed _).symm
    · rw [withReturns_cons isFeed, dropWhile_cons, dropWhile_cons,
        if_pos (bne_iff_ne.mpr isFeed), if_pos (bne_iff_ne.mpr isFeed), ih]

theorem kinds_withReturns_cut {c : Char} {rest : List Char} {first : Cut}
    (isCut : CutOf c rest first) (noFault : ∀ error, first.piece ≠ .fault error)
    (oneLine : ∀ text, first.piece = .token (.eval text) → '\n' ∉ first.taken)
    (later : kinds (withReturns first.rest) = kinds first.rest) :
    kinds (withReturns (c :: rest)) = first.piece :: kinds first.rest := by
  cases isCut with
  | spaces isBlank =>
    have again := splitRun_again (fun _ => isLineBreak_eq_false isSpace (by decide))
      (brokenOff_withReturns (rest.dropWhile isSpace))
    have noFeed : '\n' ∉ c :: rest.takeWhile isSpace := by
      rintro (_ | ⟨_, member⟩)
      · cases isBlank
      · cases mem_takeWhile_imp member
    have whole := rest.takeWhile_append_dropWhile (p := isSpace)
    rw [← whole, ← cons_append, withReturns_append, withReturns_of_oneLine noFeed,
      cons_append, kinds_cons, cut_of_isSpace isBlank, (Prod.mk.inj again).2, whole, later]
  | comment isMark doubled =>
    obtain ⟨more, rfl⟩ := head?_eq_some_iff.mp doubled
    have goesOn : c ≠ '\n' := by
      rintro rfl
      rcases isMark with impossible | impossible <;> cases impossible
    have left := kinds_dropWhile_withReturns (c :: c :: more)
    rw [withReturns_cons goesOn, withReturns_cons goesOn] at left ⊢
    rw [kinds_cons, cut_of_doubled isMark rfl]
    exact congrArg (.gap :: ·) (left.trans later)
  | lineBreaks breaks =>
    have opened : kinds (withReturns (c :: rest)) =
        .lineBreak :: kinds ((withReturns rest).dropWhile isLineBreak) := by
      by_cases isFeed : c = '\n'
      · subst isFeed
        exact (kinds_returnFeed _).trans (kinds_lineBreak rfl _)
      · rw [withReturns_cons isFeed, kinds_lineBreak breaks]
    rw [opened, dropWhile_withReturns, later]
  | @token t taken after goesOn reads =>
    have noFeed : '\n' ∉ c :: taken := by
      rintro (_ | ⟨_, member⟩)
      · cases goesOn
      · obtain ⟨text, rfl⟩ := reads.oneLine member
        exact oneLine text rfl (mem_cons_of_mem c member)
    rw [reads.whole, ← cons_append, withReturns_append, withReturns_of_oneLine noFeed,
      cons_append, kinds_cons, reads.again _ (brokenOff_withReturns _), later]
  | fault error => exact absurd rfl (noFault error)

/-- Every text in braces stands on one line. -/
def EvalsOnOneLine (start : Nat) (chars : List Char) (placed : List PlacedPiece) : Prop :=
  ∀ before taken after text, chars = before ++ taken ++ after →
    ⟨.token (.eval text), ⟨start + byteSize before, start + byteSize (before ++ taken)⟩⟩ ∈ placed →
      '\n' ∉ taken

theorem kinds_withReturns (start : Nat) (chars : List Char)
    (noFault : ∀ error, .fault error ∉ kinds chars)
    (oneLine : EvalsOnOneLine start chars (pieces start chars)) :
    kinds (withReturns chars) = kinds chars := by
  induction start, chars using pieces.induct with
  | case1 start => rfl
  | case2 start c rest first stop ih =>
    have parts : first.taken ++ first.rest = c :: rest := taken_append_rest c rest
    have spans : stop = start + byteSize first.taken := rfl
    obtain ⟨noFaultHere, noFaultRest⟩ := noFault_cut noFault
    rw [pieces] at oneLine
    rw [kinds_cons]
    refine kinds_withReturns_cut (cutOf_cut c rest) noFaultHere (fun text same => ?_) ?_
    · refine oneLine [] first.taken first.rest text parts.symm ?_
      rw [← same]
      exact mem_cons_self
    · refine ih noFaultRest ?_
      rintro before taken after text isRest member
      refine oneLine (first.taken ++ before) taken after text ?_ (mem_cons_of_mem _ ?_)
      · rw [← parts, isRest]
        simp only [append_assoc]
      · rw [spans] at member
        simpa only [byteSize_append, append_assoc, Nat.add_assoc] using member

/-! ## Scripts with the same tokens -/

def Slack.anyPlace : Slack where
  places _ _ := True
  lenient := False
  union _ _ := trivial
  anywhere := False.elim

theorem Streams.of_tokens {xs ys : List PlacedToken}
    (ended : ∃ front loc, xs = front ++ [⟨.eof, loc⟩])
    (same : ys.map PlacedToken.token = xs.map PlacedToken.token) : Streams .anyPlace xs ys := by
  obtain ⟨front, loc, rfl⟩ := ended
  induction front generalizing ys with
  | nil =>
    obtain ⟨⟨t, place⟩, rfl, rfl⟩ := map_eq_singleton_iff.mp same
    exact .last trivial
  | cons first rest ih =>
    obtain ⟨⟨t, place⟩, others, rfl, rfl, later⟩ := map_eq_cons_iff.mp same
    exact .cons first.token trivial (ih later)

theorem Failure.Matches.unlocated_ofFailure {failure failure' : Failure}
    (matched : failure.Matches .anyPlace failure') :
    (CompileFailure.ofFailure failure').unlocated =
      (CompileFailure.ofFailure failure).unlocated := by
  cases failure <;> cases failure'
  · obtain ⟨-, same, -⟩ := matched
    simp only [CompileFailure.ofFailure, CompileFailure.unlocated, map_singleton, same]
  · exact matched.elim
  · exact matched.elim
  · exact congrArg CompileFailure.defect matched

theorem compileProgram_eq_bind (registry : Registry) (program : List Stmt) :
    compileProgram registry program = (lowerProgram registry program >>=
      fun lowered => Conditions.checked (emit lowered)).mapError .ofFailure := by
  unfold compileProgram
  cases lowerProgram registry program with
  | error failure => rfl
  | ok lowered =>
    rw [show (Except.ok lowered >>= fun lowered => Conditions.checked (emit lowered)) =
      Conditions.checked (emit lowered) from rfl]
    dsimp only
    cases emit lowered <;> rfl

theorem compileProgram_of_sameProgram (registry : Registry) {program program' : List Stmt}
    (same : SameProgram .anyPlace program program') :
    (compileProgram registry program').mapError CompileFailure.unlocated =
      (compileProgram registry program).mapError CompileFailure.unlocated := by
  have lowered : Slack.Agree .anyPlace
      (Forall₂ (Stmt.MatchesLowered .anyPlace fun _ _ => True))
      (lowerProgram registry program) (lowerProgram registry program') :=
    agree_lowerProgram False.elim (matched_of_sameProgram same)
  have agree := lowered.bind fun _ _ matched _ _ => agree_emit matched
  rw [compileProgram_eq_bind, compileProgram_eq_bind]
  generalize lowerProgram registry program >>= _ = ran at agree ⊢
  generalize lowerProgram registry program' >>= _ = ran' at agree ⊢
  cases ran <;> cases ran'
  · exact congrArg Except.error (agree.resolve_left False.elim).unlocated_ofFailure
  · exact agree.elim
  · exact agree.elim
  · exact congrArg Except.ok (agree.resolve_left False.elim)

theorem Blamed.unlocated_eq {errors errors' : List Diagnostic}
    (blamed : Forall₂ (Blamed .anyPlace) errors errors') :
    (CompileFailure.refused errors').unlocated = (CompileFailure.refused errors).unlocated := by
  refine congrArg CompileFailure.refused ?_
  induction blamed with
  | nil => rfl
  | cons first _ ih =>
    cases first
    exact congrArg (_ :: ·) ih

/-- What comes of a script depends on its tokens, but for the places that errors name. -/
theorem compile_of_tokens (registry : Registry) {source source' : String}
    {lexemes lexemes' : List Lexeme} (scanned : tokenize source = .ok lexemes)
    (scanned' : tokenize source' = .ok lexemes')
    (same : lexemes'.map Lexeme.token = lexemes.map Lexeme.token) :
    (compile registry source').mapError CompileFailure.unlocated =
      (compile registry source).mapError CompileFailure.unlocated := by
  have streams : Streams .anyPlace (placeTokens (LineTable.ofText source) lexemes)
      (placeTokens (LineTable.ofText source') lexemes') :=
    .of_tokens (placedStream_of_tokenize scanned).ended (by
      rw [placeTokens, placeTokens, map_map, map_map]
      exact same)
  obtain ⟨sameProgram, blamed⟩ := same_parseTokens streams
  unfold compile parse
  rw [scanned, scanned']
  dsimp only
  generalize parseTokens (placeTokens (LineTable.ofText source) lexemes) = parsed at *
  generalize parseTokens (placeTokens (LineTable.ofText source') lexemes') = parsed' at *
  obtain ⟨program, errors⟩ := parsed
  obtain ⟨program', errors'⟩ := parsed'
  cases blamed with
  | nil => exact compileProgram_of_sameProgram registry sameProgram
  | cons first rest => exact congrArg Except.error (Blamed.unlocated_eq (.cons first rest))

/-! ## Scripts with carriage returns -/

/-- A script with a carriage return before every line feed has the same tokens, and what comes of it
is the same but for the places that errors name. -/
theorem compile_withReturns
    (registry : Registry) {source : String} {lexemes : List Lexeme}
    (scanned : tokenize source = .ok lexemes)
    (oneLine : ∀ before taken after text, source.toList = before ++ taken ++ after →
      ⟨.eval text, ⟨byteSize before, byteSize (before ++ taken)⟩⟩ ∈ lexemes → '\n' ∉ taken) :
    ∃ lexemes', tokenize (String.ofList (withReturns source.toList)) = .ok lexemes' ∧
      lexemes'.map Lexeme.token = lexemes.map Lexeme.token ∧
      (compile registry (String.ofList (withReturns source.toList))).mapError
          CompileFailure.unlocated =
        (compile registry source).mapError CompileFailure.unlocated := by
  obtain ⟨noFault, rfl⟩ := tokenize_eq_ok_iff.mp scanned
  have sameKinds : kinds (withReturns source.toList) = kinds source.toList := by
    refine kinds_withReturns 0 _ noFault fun before taken after text whole member => ?_
    refine oneLine before taken after text whole ?_
    rw [streamOf_eq_lexemesFrom _ _ ⟨0, 0⟩]
    rw [Nat.zero_add, Nat.zero_add] at member
    exact List.mem_append_left _ (mem_lexemesFrom_of_mem member _ _)
  have scanned' := tokenize_eq_ok_iff.mpr
    ⟨by rwa [String.toList_ofList (l := withReturns source.toList), sameKinds], rfl⟩
  have same := map_token_streamOf (byteSize (withReturns source.toList)) (withReturns source.toList)
  rw [scriptTokens, sameKinds, ← scriptTokens,
    ← map_token_streamOf (byteSize source.toList)] at same
  rw [String.toList_ofList] at scanned'
  exact ⟨_, scanned', same, compile_of_tokens registry scanned scanned' same⟩

theorem compile_withReturns_comment :
    ∃ lexemes lexemes', tokenize "a = \x7b\x7bx\x7d\x7d -- y\n\nb = 'z'" = .ok lexemes ∧
      tokenize "a = \x7b\x7bx\x7d\x7d -- y\r\n\r\nb = 'z'" = .ok lexemes' ∧
      lexemes'.map Lexeme.token = lexemes.map Lexeme.token ∧
      (compile .empty "a = \x7b\x7bx\x7d\x7d -- y\r\n\r\nb = 'z'").mapError
          CompileFailure.unlocated =
        (compile .empty "a = \x7b\x7bx\x7d\x7d -- y\n\nb = 'z'").mapError
          CompileFailure.unlocated := by
  let lexemes : List Lexeme := [⟨.ident "a", ⟨0, 1⟩⟩, ⟨.eq, ⟨2, 3⟩⟩, ⟨.eval "x", ⟨4, 9⟩⟩,
    ⟨.newline, ⟨14, 16⟩⟩, ⟨.ident "b", ⟨16, 17⟩⟩, ⟨.eq, ⟨18, 19⟩⟩, ⟨.string "z", ⟨20, 23⟩⟩,
    ⟨.eof, ⟨23, 23⟩⟩]
  have scanned : tokenize "a = \x7b\x7bx\x7d\x7d -- y\n\nb = 'z'" = .ok lexemes := by
    decide +kernel
  have withText : String.ofList (withReturns "a = \x7b\x7bx\x7d\x7d -- y\n\nb = 'z'".toList) =
      "a = \x7b\x7bx\x7d\x7d -- y\r\n\r\nb = 'z'" := by
    decide +kernel
  have parts : "a = \x7b\x7bx\x7d\x7d -- y\n\nb = 'z'".toList =
      "a = ".toList ++ ("\x7b\x7bx\x7d\x7d".toList ++ " -- y\n\nb = 'z'".toList) := by
    decide +kernel
  have compiled := compile_withReturns .empty scanned fun before taken after text whole member => by
    have sizes : byteSize before = 4 ∧ byteSize (before ++ taken) = 9 := by
      simp only [lexemes, List.mem_cons, Lexeme.mk.injEq, Span.mk.injEq, reduceCtorEq, false_and,
        List.not_mem_nil, or_false, false_or] at member
      exact member.2
    rw [parts, List.append_assoc] at whole
    obtain rfl := eq_of_byteSize_eq whole.symm sizes.1
    rw [byteSize_append] at sizes
    obtain rfl := eq_of_byteSize_eq (List.append_cancel_left whole).symm
      (Nat.add_left_cancel sizes.2)
    decide
  rw [withText] at compiled
  obtain ⟨lexemes', scanned', same⟩ := compiled
  exact ⟨lexemes, lexemes', scanned, scanned', same⟩

end AutomationScript
