import AutomationScript.Proofs.Grammar.Nesting
import AutomationScript.Proofs.Grammar.SentencesRead
import AutomationScript.Proofs.Token.Concatenation
import Mathlib.Data.List.Basic

/-!
# Parsing one script after another

A script is read without errors exactly if the rules form its tokens (`parse_iff_forms`).  What they
form can be followed by what they form (`Forms.append`), so two scripts that are read without errors
are read again, one after the other.
-/

namespace AutomationScript

open List Reader AutomationScript.Parser

variable {tokens : List Token} {statements : List Stmt} {source : String}

namespace Grammar

variable {symbol : Symbol} {topLevel : Bool}

/-! ## Where a line can end -/

theorem Joins.neutral {token : Token} {operator : Operator} (joins : Joins symbol token operator)
    (depth : Nat) : StreamState.depthAfter depth token = depth := by
  cases joins <;> rfl

theorem matched_joined {elements : List (List Token)} {separators : List Token}
    (each : ∀ element ∈ elements, Matched element)
    (between : ∀ separator ∈ separators, Separates separator) :
    Matched (joined elements separators) := by
  induction elements generalizing separators with
  | nil => exact fun _ => rfl
  | cons element elements ih =>
    obtain ⟨first, more⟩ := forall_mem_cons.mp each
    cases separators with
    | nil => exact first
    | cons separator separators =>
      obtain ⟨separates, others⟩ := forall_mem_cons.mp between
      have neutral : Matched [separator] := by
        rcases separates with rfl | rfl | rfl <;> exact fun _ => rfl
      exact first.append (neutral.append (ih more others))

theorem Derives.closed {e : Expr} (derives : Derives symbol tokens e) :
    Closed tokens ∧ tokens ≠ [] := by
  induction derives with
  | tighter _ _ ih => exact ih
  | binary joins _ _ _ left right =>
    exact ⟨left.1.append (.cons joins.neutral right.1 right.2), by simp⟩
  | negated _ ih => exact ⟨.cons (fun _ => rfl) ih.1 ih.2, by simp⟩
  | negative =>
    exact ⟨.cons (fun _ => rfl) (.single (fun _ => rfl) rfl) (by simp), by simp⟩
  | parenthesized _ ih | single _ ih =>
    exact ⟨.between (fun _ => rfl) (fun _ => rfl) rfl ih.1.neutral, by simp⟩
  | @dotted base token key keyed =>
    have key : Closed [token] := by cases keyed <;> exact .single (fun _ => rfl) rfl
    exact ⟨.word (fun _ => rfl) rfl (.cons (fun _ => rfl) key (by simp)), by simp⟩
  | subscript base _ ih => exact ⟨.word (fun _ => rfl) rfl ih.1, by simp⟩
  | @list items separators _ _ _ separates _ _ ih =>
    have each : ∀ element ∈ items.map Prod.fst, Matched element := by
      intro element member
      obtain ⟨item, isItem, rfl⟩ := mem_map.mp member
      exact (ih item isItem).1.neutral
    exact ⟨.between (fun _ => rfl) (fun _ => rfl) rfl (matched_joined each separates), by simp⟩
  | _ => exact ⟨.single (fun _ => rfl) rfl, by simp⟩

theorem Argument.closed {argument : TriggerArg} (isArgument : Argument tokens argument) :
    Closed tokens ∧ tokens ≠ [] := by
  cases isArgument with
  | once => exact ⟨.word (fun _ => rfl) rfl (.single (fun _ => rfl) rfl), by simp⟩
  | counted _ _ count =>
    have inner : Matched [.number count] := fun _ => rfl
    have counted : Closed [.leftParen, .number count, .rightParen] :=
      .between (fun _ => rfl) (fun _ => rfl) rfl inner
    exact ⟨.word (fun _ => rfl) rfl (.word (fun _ => rfl) rfl counted), by simp⟩

theorem Simple.closed {s : Stmt} (simple : Simple tokens s) : Closed tokens := by
  cases simple with
  | @assign _ _ restriction _ _ _ _ _ target value restricts =>
    have conditionClosed : Closed restriction := by
      cases restricts with
      | never => exact .nil
      | condition derives => exact .word (fun _ => rfl) rfl derives.closed.1
    have right := value.closed.1.append conditionClosed
    exact target.closed.1.append (.cons (fun _ => rfl) right (by simp [value.closed.2]))
  | trigger isAction isCondition =>
    exact isAction.closed.1.append (.word (fun _ => rfl) rfl isCondition.closed.1)
  | use => exact .word (fun _ => rfl) rfl (.single (fun _ => rfl) rfl)

theorem Listing.closed {α : Type} {item : List Token → List α → Prop} {values : List α}
    (listing : Listing item tokens values)
    (each : ∀ tokens values, item tokens values → Closed tokens) : Closed tokens := by
  induction listing with
  | nil => exact .nil
  | skip terminates _ ih => exact (Closed.terminator terminates).append ih
  | last isItem => exact each _ _ isItem
  | cons isItem terminates _ ih =>
    exact (each _ _ isItem).append ((Closed.terminator terminates).append ih)

theorem Forms.closed {role : Role} (forms : Forms role tokens statements) : Closed tokens := by
  have ends : Closed [.endWord] := .single (fun _ => rfl) rfl
  induction forms with
  | simple _ simple => exact simple.closed
  | triggerBlock _ waits does _ =>
    have actions : Closed _ := does.closed <| by
      rintro tokens values ⟨action, _, isAction⟩
      exact isAction.closed.1
    exact .word (fun _ => rfl) rfl
      (waits.closed.1.append (.word (fun _ => rfl) rfl (actions.append ends)))
  | conditionBlock _ derives _ _ body other =>
    exact .word (fun _ => rfl) rfl
      (derives.closed.1.append (.word (fun _ => rfl) rfl (body.append (other.append ends))))
  | defineExpr name derives =>
    exact .word (fun _ => rfl) rfl (.word (fun _ => rfl) rfl
      (.cons (fun _ => rfl) derives.closed.1 derives.closed.2))
  | defineBlock name _ body =>
    exact .word (fun _ => rfl) rfl (.word (fun _ => rfl) rfl
      (.word (fun _ => rfl) rfl (body.append ends)))
  | noOther | nil => exact .nil
  | other _ _ body => exact .word (fun _ => rfl) rfl body
  | skip terminates _ ih => exact (Closed.terminator terminates).append ih
  | last _ ih => exact ih
  | cons _ terminates _ first more =>
    exact first.append ((Closed.terminator terminates).append more)

/-! ## Targets -/

theorem Derives.solid {e : Expr} (derives : Derives symbol tokens e) : e.isVoid = false := by
  induction derives with
  | tighter _ _ ih | parenthesized _ ih | single _ ih => exact ih
  | dotted base keyed => cases keyed <;> rfl
  | subscript base _ ih => exact Expr.isVoid_subscript ih _ _
  | @list items _ _ someSeparator lengths _ _ _ _ =>
    cases items with
    | nil => simp [someSeparator] at lengths
    | cons => rfl
  | _ => rfl

theorem Forms.solid {role : Role} (forms : Forms role tokens statements) :
    statements.any Stmt.isVoid = false := by
  induction forms with
  | simple _ simple =>
    cases simple with
    | assign _ target _ _ => simp [Stmt.isVoid, target.solid]
    | _ => rfl
  | conditionBlock _ _ _ _ body other => simp_all [Stmt.isVoid]
  | defineBlock name _ ih => simp [Stmt.isVoid, Stmt.anyVoid_eq_any, ih]
  | other _ _ ih => simp_all [Stmt.isVoid]
  | skip _ _ ih | last _ ih => exact ih
  | cons _ _ _ first more => rw [any_append, first, more, Bool.or_self]
  | _ => rfl

/-! ## One after the other -/

theorem Forms.ne_nil (forms : Forms (.statement topLevel) tokens statements) : tokens ≠ [] := by
  rintro rfl
  cases forms.starts

theorem Forms.isTerminator_last (forms : Forms (.statement topLevel) tokens statements) :
    ∀ t ∈ tokens.getLast?, isTerminator t = false := by
  intro t isLast
  have stays : tokens.all staysInStatement = true → isTerminator t = false := fun all =>
    isTerminator_of_staysInStatement (all_eq_true.mp all t (mem_of_getLast? isLast))
  cases forms with
  | simple _ simple => exact stays simple.all_stay
  | defineExpr name derives =>
    refine isTerminator_of_staysInStatement
      (all_eq_true.mp derives.all_stay t (mem_of_getLast? ?_))
    simpa [getLast?_cons_cons, getLast?_cons_of_ne_nil, derives.closed.2] using isLast
  | _ =>
    simp only [← cons_append, ← append_assoc, getLast?_append] at isLast
    cases isLast
    rfl

theorem Forms.of_mark {mark : Token} {whole : List Token}
    (forms : Forms (.statements topLevel) whole statements) (isWhole : whole = mark :: tokens)
    (stops : isStop mark = true) :
    isTerminator mark = true ∧ Forms (.statements topLevel) tokens statements := by
  have never : ∀ {first : List Token} {found : List Stmt}, headOf first = mark →
      ¬Forms (.statement topLevel) first found := by
    rintro first found rfl forms
    obtain ⟨goesOn, opens⟩ := forms.accepted.1
    cases head : headOf first <;> rw [head] at stops goesOn opens <;>
      first
      | cases stops; done
      | cases goesOn; done
      | cases opens
  cases forms with
  | nil => cases isWhole
  | skip terminates rest =>
    cases isWhole
    exact ⟨terminates, rest⟩
  | last first => exact absurd first (never (isWhole ▸ rfl))
  | @cons _ _ start _ _ _ first _ _ =>
    cases start with
    | nil => exact absurd rfl first.ne_nil
    | cons t start => exact absurd first (never (List.cons.inj isWhole).1)

theorem Forms.eq_nil {whole : List Token} (forms : Forms (.statements topLevel) whole statements)
    (isWhole : whole = []) : statements = [] := by
  cases forms with
  | nil => rfl
  | skip => cases isWhole
  | last first => exact absurd isWhole first.ne_nil
  | cons => simp at isWhole

/-- A statement can end between the tokens of a script and what stands behind them. -/
def Separated (front back : List Token) : Prop :=
  front = [] ∨ (∃ t ∈ front.getLast?, isTerminator t = true) ∨ isStop (headOf back) = true

theorem Separated.later {start front back : List Token} {mark : Token}
    (separated : Separated (start ++ mark :: front) back) : Separated front back := by
  cases front with
  | nil => exact .inl rfl
  | cons t front =>
    rcases separated with none | ⟨last, isLast, terminates⟩ | stops
    · simp at none
    · rw [getLast?_append_cons, getLast?_cons_cons] at isLast
      exact .inr (.inl ⟨last, isLast, terminates⟩)
    · exact .inr (.inr stops)

/-- What the rules form can be followed by what they form. -/
theorem Forms.append {front back : List Token} {more : List Stmt}
    (forms : Forms (.statements topLevel) front statements)
    (moreForms : Forms (.statements topLevel) back more) (separated : Separated front back) :
    Forms (.statements topLevel) (front ++ back) (statements ++ more) := by
  generalize isRole : Role.statements topLevel = role at forms
  induction forms with
  | nil => exact isRole ▸ moreForms
  | @skip _ mark tokens _ terminates _ ih =>
    have whole : Separated ([] ++ mark :: tokens) back := separated
    exact .skip terminates (ih whole.later isRole)
  | last first =>
    cases isRole
    have stops : isStop (headOf back) = true := by
      rcases separated with none | ⟨t, isLast, terminates⟩ | stops
      · exact absurd none first.ne_nil
      · rw [first.isTerminator_last t isLast] at terminates
        cases terminates
      · exact stops
    cases back with
    | nil =>
      rw [moreForms.eq_nil rfl, append_nil, append_nil]
      exact .last first
    | cons mark back =>
      obtain ⟨terminates, rest⟩ := moreForms.of_mark rfl stops
      exact .cons first terminates rest
  | cons first terminates _ _ ih =>
    rw [append_assoc, append_assoc]
    exact .cons first terminates (ih separated.later isRole)
  | _ => cases isRole

theorem Forms.continuesLine_head (forms : Forms (.statements topLevel) tokens statements) :
    ∀ t ∈ tokens.head?, t.continuesLine = false := by
  have start : ∀ {first : List Token} {found : List Stmt},
      Forms (.statement topLevel) first found → (headOf first).continuesLine = false := by
    intro first found forms
    cases forms with
    | simple _ simple =>
      rcases simple.starts with ⟨name, isName⟩ | isUse
      · rw [isName]
        rfl
      · rw [isUse]
        rfl
    | _ => rfl
  cases forms with
  | nil => exact nofun
  | @skip _ mark _ _ terminates _ =>
    intro t isHead
    cases isHead
    cases mark <;> first | rfl | cases terminates
  | last first =>
    intro t isHead
    have begins := start first
    rwa [headOf, headD_eq_head?_getD, isHead] at begins
  | @cons _ _ tokens _ _ _ first _ _ =>
    intro t isHead
    have begins := start first
    rw [head?_append_of_ne_nil _ first.ne_nil] at isHead
    rwa [headOf, headD_eq_head?_getD, isHead] at begins

end Grammar

open Grammar

variable {program : List Stmt}

/-! ## Scripts -/

theorem parse_eq_parseTokens (noFault : ∀ error, .fault error ∉ kinds source.toList) :
    ∃ stream, tokensOf stream = tokensIn source ++ [.eof] ∧ parse source = parseTokens stream := by
  refine ⟨_, ?_, by rw [parse, tokenize_eq_ok_iff.mpr ⟨noFault, rfl⟩]⟩
  rw [tokensIn_eq noFault, ← map_token_streamOf (byteSize source.toList), tokensOf, placeTokens,
    map_map]
  rfl

theorem noFault_of_parse (parsed : parse source = (program, [])) (error : LexicalError) :
    .fault error ∉ kinds source.toList := by
  suffices none : faultsOf (pieces 0 source.toList) = [] from faultsOf_eq_nil_iff.mp none error
  rw [parse, tokenize] at parsed
  dsimp only at parsed
  cases found : faultsOf (pieces 0 source.toList) with
  | nil => rfl
  | cons fault others =>
    rw [found] at parsed
    simp at parsed

theorem exists_front_of_tokensOf {stream : List PlacedToken}
    (same : tokensOf stream = tokens ++ [.eof]) :
    ∃ front last, stream = front ++ [last] ∧ tokensOf front = tokens ∧ last.token = .eof := by
  obtain ⟨front, ending, rfl, sameFront, sameEnding⟩ := map_eq_append_iff.mp same
  obtain ⟨last, rfl, isEof⟩ := map_eq_singleton_iff.mp sameEnding
  exact ⟨front, last, rfl, sameFront, isEof⟩

/-- A script without faults is read from a stream that ends once. -/
theorem exists_stream (noFault : ∀ error, .fault error ∉ kinds source.toList) :
    ∃ front last, tokensOf front = tokensIn source ∧ last.token = .eof ∧
      (∀ placed ∈ front, placed.token ≠ .eof) ∧ parse source = parseTokens (front ++ [last]) := by
  obtain ⟨stream, tokens, read⟩ := parse_eq_parseTokens noFault
  obtain ⟨front, last, rfl, sameFront, isEof⟩ := exists_front_of_tokensOf tokens
  refine ⟨front, last, sameFront, isEof, fun placed member => ?_, read⟩
  have tokenMember : placed.token ∈ scriptTokens source.toList := by
    rw [← tokensIn_eq noFault, ← sameFront]
    exact mem_map_of_mem member
  exact ne_eof_of_mem_scriptTokens tokenMember

theorem exists_parseTokens_of_parse (parsed : parse source = (program, [])) :
    ∃ front last, tokensOf front = tokensIn source ∧ last.token = .eof ∧
      (∀ placed ∈ front, placed.token ≠ .eof) ∧
      parseTokens (front ++ [last]) = (program, []) := by
  obtain ⟨front, last, sameFront, isEof, noEof, read⟩ := exists_stream (noFault_of_parse parsed)
  exact ⟨front, last, sameFront, isEof, noEof, read.symm.trans parsed⟩

theorem closed_of_parsed {front : List PlacedToken} {last : PlacedToken}
    (noEof : ∀ placed ∈ front, placed.token ≠ .eof) (isEof : last.token = .eof)
    (parsed : parseTokens (front ++ [last]) = (program, [])) : Closed (tokensOf front) :=
  (forms_of_parsed noEof isEof parsed).closed

/-- A script without faults is read without errors exactly if the rules form its tokens. -/
theorem parse_iff_forms (noFault : ∀ error, .fault error ∉ kinds source.toList) :
    (∃ program, parse source = (program, []) ∧ program.map Stmt.unlocated = statements) ↔
      Grammar.Forms (.statements true) (tokensIn source) statements := by
  obtain ⟨front, last, sameFront, isEof, noEof, read⟩ := exists_stream noFault
  rw [read, ← sameFront]
  exact parseTokens_iff_forms noEof isEof

theorem forms_of_parse (parsed : parse source = (program, [])) :
    Grammar.Forms (.statements true) (tokensIn source) (program.map Stmt.unlocated) :=
  (parse_iff_forms (noFault_of_parse parsed)).mp ⟨program, parsed, rfl⟩

/-! ## Two scripts -/

/-- The statements are the same wherever they stand, and each assigns to something. -/
structure Stmt.Agree (program program' : List Stmt) : Prop where
  same : program.map Stmt.unlocated = program'.map Stmt.unlocated
  solid : program.any Stmt.isVoid = false

/-- The line break between the scripts ends a statement if one is left to end: the first script ends
in no wildcard, or no statement follows it on the line. -/
def Joinable (first second : String) : Prop :=
  (tokensIn first).getLast? = some .star → ∀ t ∈ (tokensIn second).head?, t = .semicolon

variable {first second : String}

theorem separated_of_joinable (joinable : Joinable first second)
    (closed : Closed (tokensIn first)) :
    Separated (tokensIn first)
      ((if tokensIn second = [] then [] else markAfter (tokensIn first)) ++ tokensIn second) := by
  by_cases nothing : tokensIn second = []
  · refine .inr (.inr ?_)
    rw [nothing]
    rfl
  rw [if_neg nothing, markAfter]
  cases last : (tokensIn first).getLast? with
  | none => exact .inl (getLast?_eq_none_iff.mp last)
  | some t =>
    cases asks : t.asksForMore with
    | false =>
      rw [Option.any_some, asks]
      exact .inr (.inr rfl)
    | true =>
      rcases eq_star_or_isTerminator asks (closed.last t last) with rfl | terminates
      · have follows := joinable last
        obtain ⟨t, others, tokens⟩ := exists_cons_of_ne_nil nothing
        rw [tokens] at follows ⊢
        rw [follows t rfl]
        exact .inr (.inr rfl)
      · exact .inr (.inl ⟨t, last, terminates⟩)

/-- Two scripts that are read without errors are read without errors one after the other. -/
theorem exists_parse_append {more : List Stmt} (joinable : Joinable first second)
    (parsed : parse first = (program, [])) (parsedMore : parse second = (more, [])) :
    ∃ program', Stmt.Agree (program ++ more) program' ∧
      parse (first ++ "\n" ++ second) = (program', []) := by
  have noFault := noFault_of_parse parsed
  have noFaultMore := noFault_of_parse parsedMore
  have forms := forms_of_parse parsed
  have moreForms := forms_of_parse parsedMore
  have closed := forms.closed
  obtain ⟨noFaultWhole, wholeTokens⟩ := tokensIn_append noFault noFaultMore (closed.neutral 0)
    moreForms.continuesLine_head
  have separated := separated_of_joinable joinable closed
  generalize isBetween : (if tokensIn second = [] then [] else markAfter (tokensIn first)) = between
    at wholeTokens separated
  have betweenForms : Grammar.Forms (.statements true) (between ++ tokensIn second)
      (more.map Stmt.unlocated) := by
    rw [← isBetween, markAfter]
    split
    · exact moreForms
    · split
      · exact .skip rfl moreForms
      · exact moreForms
  have wholeForms := forms.append betweenForms separated
  rw [← wholeTokens, ← map_append] at wholeForms
  obtain ⟨program', wholeParsed, same⟩ := (parse_iff_forms noFaultWhole).mpr wholeForms
  refine ⟨program', ⟨same.symm, ?_⟩, wholeParsed⟩
  have solid := wholeForms.solid
  rw [any_map] at solid
  simpa only [Function.comp_def, Stmt.isVoid_unlocated] using solid

end AutomationScript
