import AutomationScript.Proofs.Token.Marks

/-!
# The tokens of two scripts

The token stream of two scripts with a line break between them has the tokens of both, with the end
of a statement in between, unless the first ends in a token after which a line goes on.
-/

namespace AutomationScript

open List Scanner

variable {front back : List Token}

/-! ## Tokens that a line can end after -/

/-- Whether something must follow the token on the same line. -/
def Token.leavesOpen : Token → Bool
  | .star | .newline | .semicolon => false
  | token => token.asksForMore

def Matched (tokens : List Token) : Prop :=
  ∀ depth, tokens.foldl StreamState.depthAfter depth = depth

theorem Matched.append (frontMatched : Matched front) (backMatched : Matched back) :
    Matched (front ++ back) := by
  intro depth
  rw [foldl_append, frontMatched, backMatched]

/-- Tokens whose brackets match and that do not end in one that leaves the line open. -/
structure Closed (tokens : List Token) : Prop where
  neutral : Matched tokens
  last : ∀ token ∈ tokens.getLast?, token.leavesOpen = false

namespace Closed

variable {token : Token} {tokens : List Token}

theorem nil : Closed [] :=
  ⟨fun _ => rfl, nofun⟩

theorem append (frontClosed : Closed front) (backClosed : Closed back) :
    Closed (front ++ back) := by
  refine ⟨fun depth => ?_, fun token isLast => ?_⟩
  · exact frontClosed.neutral.append backClosed.neutral depth
  · rw [getLast?_append] at isLast
    cases backLast : back.getLast? with
    | none =>
      rw [backLast] at isLast
      exact frontClosed.last token isLast
    | some final =>
      rw [backLast] at isLast
      cases isLast
      exact backClosed.last token backLast

theorem single (neutral : ∀ depth, StreamState.depthAfter depth token = depth)
    (closes : token.leavesOpen = false) : Closed [token] := by
  refine ⟨neutral, fun last isLast => ?_⟩
  cases isLast
  exact closes

theorem after (matched : Matched front) (closed : Closed back) (nonempty : back ≠ []) :
    Closed (front ++ back) := by
  refine ⟨matched.append closed.neutral, fun last isLast => closed.last last ?_⟩
  rw [getLast?_append, Option.or_of_isSome (getLast?_isSome.mpr nonempty)] at isLast
  exact isLast

theorem cons (neutral : ∀ depth, StreamState.depthAfter depth token = depth)
    (closed : Closed tokens) (nonempty : tokens ≠ []) : Closed (token :: tokens) := by
  have matched : Matched [token] := neutral
  exact closed.after matched nonempty

theorem word (neutral : ∀ depth, StreamState.depthAfter depth token = depth)
    (closes : token.leavesOpen = false) (closed : Closed tokens) : Closed (token :: tokens) :=
  (single neutral closes).append closed

theorem between {opening closing : Token}
    (opens : ∀ depth, StreamState.depthAfter depth opening = depth + 1)
    (closes : ∀ depth, StreamState.depthAfter (depth + 1) closing = depth)
    (closed : closing.leavesOpen = false) (inner : Matched tokens) :
    Closed (opening :: tokens ++ [closing]) := by
  refine ⟨fun depth => ?_, fun last isLast => ?_⟩
  · rw [cons_append, foldl_cons, foldl_append, opens, inner]
    exact closes depth
  · rw [getLast?_append] at isLast
    cases isLast
    exact closed

end Closed

theorem Closed.terminator {t : Token} (terminates : Reader.isTerminator t = true) : Closed [t] := by
  cases t <;> first | exact .single (fun _ => rfl) rfl | cases terminates

/-! ## Two texts -/

def takeIn (state : Outlook × List Token) (piece : Piece) : Outlook × List Token :=
  (state.1.after piece, state.2 ++ state.1.gives piece)

theorem foldl_takeIn (o : Outlook) (before : List Token) (text : List Piece) :
    text.foldl takeIn (o, before) = (text.foldl Outlook.after o, before ++ tokensFrom o text) := by
  induction text generalizing o before with
  | nil => rw [foldl_nil, tokensFrom, append_nil, foldl_nil]
  | cons piece rest ih =>
    rw [foldl_cons, takeIn, ih, append_assoc, foldl_cons, tokensFrom]

/-- The tokens of two texts with a line break between them. -/
theorem tokensFrom_append {front : List Char} (noFault : ∀ error, .fault error ∉ kinds front)
    (o : Outlook) (back : List Char) :
    tokensFrom o (kinds (front ++ '\n' :: back)) = tokensFrom o (kinds front) ++
      tokensFrom (((kinds front).foldl Outlook.after o).after .lineBreak) (kinds back) := by
  have once : ∀ state, takeIn (takeIn state .lineBreak) .lineBreak = takeIn state .lineBreak := by
    simp [takeIn, Outlook.after, Outlook.gives]
  have whole := foldl_kinds_append once (o, []) front back noFault
  rw [foldl_takeIn, foldl_takeIn, takeIn, foldl_takeIn] at whole
  simpa [Outlook.gives] using congrArg Prod.snd whole

/-- The mark of a statement's end after the tokens, if a line break there ends one. -/
def markAfter (tokens : List Token) : List Token :=
  if tokens.getLast?.any (!·.asksForMore) then [.newline] else []

theorem scriptTokens_append {front back : List Char}
    (noFault : ∀ error, .fault error ∉ kinds front)
    (outside : (scriptTokens front).foldl StreamState.depthAfter 0 = 0)
    (starts : ∀ t ∈ (scriptTokens back).head?, t.continuesLine = false) :
    scriptTokens (front ++ '\n' :: back) = scriptTokens front ++
      ((if scriptTokens back = [] then [] else markAfter (scriptTokens front)) ++
        scriptTokens back) := by
  have depth := (depth_foldl_after .start (kinds front)).trans outside
  have ends := ends_foldl_after .start (kinds front)
  rw [scriptTokens, tokensFrom_append noFault]
  refine congrArg (scriptTokens front ++ ·) ?_
  generalize (kinds front).foldl Outlook.after .start = o at depth ends
  have atSeam : o.after .lineBreak = ⟨0, false, o.ends⟩ := by
    rw [← depth]
    rfl
  have last : o.ends = (scriptTokens front).getLast?.any (!·.asksForMore) := by
    rw [ends, depth, scriptTokens]
    cases (tokensFrom .start (kinds front)).getLast? <;> rfl
  rw [atSeam, markAfter, ← last]
  cases o.ends with
  | false => rw [if_neg Bool.false_ne_true, ite_self]; rfl
  | true =>
    obtain ⟨later, isLater⟩ : ∃ later, lexemesFrom .start ⟨0, 0⟩ (pieces 0 back) = later := ⟨_, rfl⟩
    have isBack : later.map Lexeme.token = scriptTokens back :=
      isLater ▸ map_token_lexemesFrom .start ⟨0, 0⟩ (pieces 0 back)
    have begins : ∀ first ∈ later.head?, first.token.continuesLine = false := by
      intro first isFirst
      apply starts
      rw [← isBack, head?_map]
      exact Option.mem_map_of_mem _ isFirst
    have marked := map_token_lexemesFrom ⟨0, false, true⟩ ⟨0, 0⟩ (pieces 0 back)
    rw [lexemesFrom_due isLater begins] at marked
    rw [if_pos rfl, kinds, ← marked, ← isBack]
    cases later <;> rfl

/-- A token after which a line goes on, but a script can end. -/
theorem eq_star_or_isTerminator {t : Token} (asks : t.asksForMore = true)
    (closed : t.leavesOpen = false) : t = .star ∨ Reader.isTerminator t = true := by
  cases t <;> simp_all [Token.asksForMore, Token.leavesOpen, Reader.isTerminator]

/-! ## Scripts -/

theorem foldl_or_eq_contains (wanted : Piece) (text : List Piece) (found : Bool) :
    text.foldl (fun found piece => found || piece == wanted) found =
      (found || text.contains wanted) := by
  induction text generalizing found with
  | nil => simp
  | cons piece rest ih =>
    rw [foldl_cons, ih, contains_cons, Bool.beq_comm, ← Bool.or_assoc]

theorem noFault_append {front back : List Char} (noFault : ∀ error, .fault error ∉ kinds front)
    (noFaultBack : ∀ error, .fault error ∉ kinds back) (error : LexicalError) :
    .fault error ∉ kinds (front ++ '\n' :: back) := by
  have different : (Piece.lineBreak == .fault error) = false := rfl
  have whole := @foldl_kinds_append Bool (fun found piece => found || piece == .fault error)
    (fun found => by simp [different]) false front back noFault
  rw [foldl_or_eq_contains, foldl_or_eq_contains, foldl_or_eq_contains] at whole
  simpa [noFault, noFaultBack, different] using whole

/-- The tokens of a script, without the end of the input. -/
def tokensIn (source : String) : List Token :=
  match tokenize source with
  | .ok lexemes => (lexemes.map Lexeme.token).dropLast
  | .error _ => []

theorem tokensIn_eq {source : String} (noFault : ∀ error, .fault error ∉ kinds source.toList) :
    tokensIn source = scriptTokens source.toList := by
  rw [tokensIn, tokenize_eq_ok_iff.mpr ⟨noFault, rfl⟩]
  dsimp only
  rw [map_token_streamOf, dropLast_concat]

theorem tokensIn_append {front back : String}
    (noFault : ∀ error, .fault error ∉ kinds front.toList)
    (noFaultBack : ∀ error, .fault error ∉ kinds back.toList)
    (outside : (tokensIn front).foldl StreamState.depthAfter 0 = 0)
    (starts : ∀ t ∈ (tokensIn back).head?, t.continuesLine = false) :
    (∀ error, .fault error ∉ kinds (front ++ "\n" ++ back).toList) ∧
      tokensIn (front ++ "\n" ++ back) = tokensIn front ++
        ((if tokensIn back = [] then [] else markAfter (tokensIn front)) ++ tokensIn back) := by
  have chars : (front ++ "\n" ++ back).toList = front.toList ++ '\n' :: back.toList := by
    rw [String.toList_append, String.toList_append, append_assoc]
    rfl
  have noFaultWhole : ∀ error, .fault error ∉ kinds (front ++ "\n" ++ back).toList := by
    rw [chars]
    exact noFault_append noFault noFaultBack
  refine ⟨noFaultWhole, ?_⟩
  rw [tokensIn_eq noFault] at outside
  rw [tokensIn_eq noFaultBack] at starts
  rw [tokensIn_eq noFaultWhole, tokensIn_eq noFault, tokensIn_eq noFaultBack, chars]
  exact scriptTokens_append noFault outside starts

theorem noFault_of_tokensIn {source : String} (some : tokensIn source ≠ []) (error : LexicalError) :
    .fault error ∉ kinds source.toList := by
  suffices none : faultsOf (pieces 0 source.toList) = [] from faultsOf_eq_nil_iff.mp none error
  rw [tokensIn, tokenize] at some
  dsimp only at some
  cases found : faultsOf (pieces 0 source.toList) with
  | nil => rfl
  | cons fault others =>
    rw [found] at some
    exact absurd rfl some

end AutomationScript
