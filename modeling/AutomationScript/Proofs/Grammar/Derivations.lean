import AutomationScript.Proofs.Grammar.Runs
import AutomationScript.Proofs.Program.Unlocated

/-!
# The rules of expressions

`Derives` states the grammar of expressions as rules from tokens to trees, without lookahead.  What
`expression` reads is derived from the tokens that it takes (`takes_expression`).
-/

namespace AutomationScript

open List Reader

variable {token : Token}

namespace Grammar

/-! ## Rules -/

/-- What stands for expressions in the rules. -/
inductive Symbol where
  | disjunction
  | conjunction
  | negation
  | comparison
  | sum
  | product
  | primary
  | list
  | element
deriving DecidableEq, Repr

/-- The symbol that may stand alone in the place of this one. -/
def Symbol.tighter? : Symbol → Option Symbol
  | .disjunction => some .conjunction
  | .conjunction => some .negation
  | .negation => some .comparison
  | .comparison => some .sum
  | .sum => some .product
  | .product => some .primary
  | .primary => some .list
  | .list => none
  | .element => some .sum

/-- The token is an operator between two operands on this level. -/
inductive Joins : Symbol → Token → Operator → Prop
  | or : Joins .disjunction .orWord .or
  | and : Joins .conjunction .andWord .and
  | eq : Joins .comparison .eqEq .eq
  | ne : Joins .comparison .ne .ne
  | lt : Joins .comparison .lt .lt
  | le : Joins .comparison .le .le
  | gt : Joins .comparison .gt .gt
  | ge : Joins .comparison .ge .ge
  | add : Joins .sum .plus .add
  | sub : Joins .sum .minus .sub
  | mul : Joins .product .star .mul
  | div : Joins .product .slash .div

/-- What a key after a dot is written as. -/
inductive Keyed : Token → Expr → Prop
  | name (key : String) : Keyed (.ident key) (.ident ⟨key, none⟩ none)
  | wildcard : Keyed .star (.wildcard none)
  | placeholder : Keyed .ellipsis (.placeholder none)

/-- The token may stand between two elements of a list. -/
def Separates (token : Token) : Prop :=
  token = .comma ∨ token = .andWord ∨ token = .orWord

/-- The separators ask for this fold: no two of them for different ones. -/
def Tagged (separators : List Token) : Option Fold → Prop
  | none => .andWord ∉ separators ∧ .orWord ∉ separators
  | some .and => .andWord ∈ separators ∧ .orWord ∉ separators
  | some .or => .orWord ∈ separators ∧ .andWord ∉ separators

/-- Elements, each with a separator after it as long as there are separators. -/
def joined : (elements : List (List Token)) → (separators : List Token) → List Token
  | [], _ => []
  | element :: _, [] => element
  | element :: rest, separator :: separators => element ++ separator :: joined rest separators

/-- The symbol stands for an expression that is written with these tokens. -/
inductive Derives : Symbol → List Token → Expr → Prop
  | tighter {symbol next : Symbol} {tokens : List Token} {e : Expr} :
      symbol.tighter? = some next → Derives next tokens e → Derives symbol tokens e
  | binary {symbol next : Symbol} {token : Token} {operator : Operator} {left right : List Token}
      {a b : Expr} :
      Joins symbol token operator → symbol.tighter? = some next → Derives symbol left a →
      Derives next right b →
      Derives symbol (left ++ token :: right) (.compound operator [a, b] none)
  | negated {tokens : List Token} {e : Expr} :
      Derives .negation tokens e →
      Derives .negation (.notWord :: tokens) (.compound .not [e] none)
  | number (value : Number) :
      Derives .primary [.number value] (.number value none)
  | negative (value : Number) :
      Derives .primary [.minus, .number value] (.number value.negate none)
  | string (value : String) :
      Derives .primary [.string value] (.string value none)
  | on :
      Derives .primary [.on] (.boolean true none)
  | off :
      Derives .primary [.off] (.boolean false none)
  | eval (text : String) :
      Derives .primary [.eval text] (.subscript ⟨evalName, none⟩ (.ident ⟨text, none⟩ none) none)
  | parenthesized {tokens : List Token} {e : Expr} :
      Derives .disjunction tokens e →
      Derives .primary (.leftParen :: tokens ++ [.rightParen]) e
  | name (name : String) :
      Derives .primary [.ident name] (.ident ⟨name, none⟩ none)
  | dotted (base : String) {token : Token} {key : Expr} :
      Keyed token key →
      Derives .primary [.ident base, .dot, token] (.subscript ⟨base, none⟩ key none)
  | subscript (base : String) {tokens : List Token} {key : Expr} :
      Derives .list tokens key →
      Derives .primary (.ident base :: tokens) (.subscript ⟨base, none⟩ key none)
  /-- One element without a separator stands for itself. -/
  | single {tokens : List Token} {e : Expr} :
      Derives .element tokens e →
      Derives .list (.leftBracket :: tokens ++ [.rightBracket]) e
  | list {items : List (List Token × Expr)} {separators : List Token} {fold : Option Fold} :
      separators ≠ [] →
      separators.length = items.length ∨ separators.length + 1 = items.length →
      (∀ separator ∈ separators, Separates separator) → Tagged separators fold →
      (∀ item ∈ items, Derives .element item.1 item.2) →
      Derives .list (.leftBracket :: joined (items.map Prod.fst) separators ++ [.rightBracket])
        (.list (items.map Prod.snd) fold none)
  | wildcard :
      Derives .element [.star] (.wildcard none)
  | placeholder :
      Derives .element [.ellipsis] (.placeholder none)

end Grammar

/-! ## What is taken -/

/-- The last token of the stream is the end of the input. -/
def EndsInput (stream : List PlacedToken) : Prop :=
  ∃ front loc, stream = front ++ [⟨.eof, loc⟩]

theorem EndsInput.of_cons {first : PlacedToken} {rest : List PlacedToken}
    (ends : EndsInput (first :: rest)) (goesOn : first.token ≠ .eof) : EndsInput rest := by
  obtain ⟨front, loc, whole⟩ := ends
  cases front with
  | nil =>
    cases whole
    exact absurd rfl goesOn
  | cons start front =>
    injection whole with _ whole
    exact ⟨front, loc, whole⟩

theorem EndsInput.ne_nil {stream : List PlacedToken} (ends : EndsInput stream) : stream ≠ [] := by
  obtain ⟨front, loc, rfl⟩ := ends
  simp

theorem tokensOf_append (front back : List PlacedToken) :
    tokensOf (front ++ back) = tokensOf front ++ tokensOf back :=
  map_append

/-- A state with the tokens that are left and what the errors say that were reported so far. -/
class Cursor (σ : Type) where
  tokens : σ → List PlacedToken
  messages : σ → List String

instance : Cursor (List PlacedToken) :=
  ⟨id, fun _ => []⟩

def stateOf {σ α : Type} : EStateM.Result Diagnostic σ α → σ
  | .ok _ s | .error _ s => s

/-- The computation takes no error back. -/
class Reports {σ α : Type} [Cursor σ] (x : EStateM Diagnostic σ α) : Prop where
  keeps : ∀ s, Cursor.messages s ≠ [] → Cursor.messages (stateOf (x s)) ≠ []

instance {α : Type} (reader : Reader α) : Reports reader :=
  ⟨fun _ reported => absurd rfl reported⟩

section Takes

variable {σ α β : Type} [Cursor σ] {x : EStateM Diagnostic σ α}
  {next : α → EStateM Diagnostic σ β} {pre : List Token → Prop}
  {post : α → List Token → List Token → Prop} {after : β → List Token → List Token → Prop}

/-- From a state that satisfies `pre`, the computation, if it succeeds without an error, takes tokens
that satisfy `post` together with its result and the tokens that it leaves. -/
def Takes (pre : List Token → Prop) (x : EStateM Diagnostic σ α)
    (post : α → List Token → List Token → Prop) : Prop :=
  ∀ s a s', x s = .ok a s' → Cursor.messages s = [] → Cursor.messages s' = [] →
    EndsInput (Cursor.tokens s) → pre (tokensOf (Cursor.tokens s)) →
    ∃ taken, Cursor.tokens s = taken ++ Cursor.tokens s' ∧ EndsInput (Cursor.tokens s') ∧
      post a (tokensOf taken) (tokensOf (Cursor.tokens s'))

namespace Takes

theorem stays {a : α} (holds : ∀ rest, pre rest → post a [] rest) :
    Takes pre (Pure.pure a : EStateM Diagnostic σ α) post := by
  intro s b s' ran _ _ ends before
  cases ran
  exact ⟨[], rfl, ends, holds _ before⟩

theorem pure {a : α} (holds : ∀ rest, post a [] rest) :
    Takes pre (Pure.pure a : EStateM Diagnostic σ α) post :=
  stays fun rest _ => holds rest

theorem fails (failed : ∀ s a s', x s ≠ .ok a s' := by intro _ _ _ ran; cases ran) :
    Takes pre x post :=
  fun s a s' ran => absurd ran (failed s a s')

/-- Steps in a row, where no error of the first is taken back. -/
theorem chain
    (kept : ∀ s a middle b s', x s = .ok a middle → next a middle = .ok b s' →
      Cursor.messages s = [] → Cursor.messages s' = [] → Cursor.messages middle = [])
    (takes : Takes pre x post)
    (continued : ∀ a taken rest, post a taken rest →
      Takes (fun tokens => pre (taken ++ tokens) ∧ tokens = rest) (next a)
        fun b more rest => after b (taken ++ more) rest) : Takes pre (x >>= next) after := by
  intro s b s' ran clean cleanEnd ends holds
  obtain ⟨a, middle, firstRan, nextRan⟩ := run_bind_eq_ok_iff.mp ran
  have cleanMiddle := kept s a middle b s' firstRan nextRan clean cleanEnd
  obtain ⟨taken, whole, middleEnds, read⟩ := takes s a middle firstRan clean cleanMiddle ends holds
  rw [whole, tokensOf_append] at holds
  obtain ⟨more, left, restEnds, readMore⟩ :=
    continued a _ _ read middle b s' nextRan cleanMiddle cleanEnd middleEnds ⟨holds, rfl⟩
  refine ⟨taken ++ more, by rw [whole, left, append_assoc], restEnds, ?_⟩
  rwa [tokensOf_append]

theorem bind [reports : ∀ a, Reports (next a)] (takes : Takes pre x post)
    (continued : ∀ a taken rest, post a taken rest →
      Takes (fun tokens => pre (taken ++ tokens) ∧ tokens = rest) (next a)
        fun b more rest => after b (taken ++ more) rest) : Takes pre (x >>= next) after := by
  refine takes.chain (fun s a middle b s' _ nextRan _ cleanEnd => ?_) continued
  refine Decidable.byContradiction fun reported => ?_
  have kept := (reports a).keeps middle reported
  rw [nextRan] at kept
  exact kept cleanEnd

variable {weaker : α → List Token → List Token → Prop}

theorem mono {stronger : List Token → Prop} (takes : Takes pre x post)
    (strengthen : ∀ tokens, stronger tokens → pre tokens)
    (weaken : ∀ a taken rest, post a taken rest → weaker a taken rest) :
    Takes stronger x weaker := by
  intro s a s' ran clean cleanEnd ends holds
  obtain ⟨taken, whole, restEnds, read⟩ :=
    takes s a s' ran clean cleanEnd ends (strengthen _ holds)
  exact ⟨taken, whole, restEnds, weaken a _ _ read⟩

theorem step [∀ a, Reports (next a)] (takes : Takes pre x fun _ taken _ => taken = [token])
    (continued : ∀ a, Takes (fun tokens => pre (token :: tokens)) (next a)
      fun b more rest => after b (token :: more) rest) : Takes pre (x >>= next) after := by
  apply takes.bind
  rintro a _ _ rfl
  exact (continued a).mono (fun _ => And.left) fun _ _ _ holds => holds

theorem also (takes : Takes pre x post) :
    Takes pre x fun a taken rest => pre (taken ++ rest) ∧ post a taken rest := by
  intro s a s' ran clean cleanEnd ends holds
  obtain ⟨taken, whole, restEnds, read⟩ := takes s a s' ran clean cleanEnd ends holds
  rw [whole, tokensOf_append] at holds
  exact ⟨taken, whole, restEnds, holds, read⟩

theorem imp (takes : Takes (fun _ => True) x post)
    (weaken : ∀ a taken rest, post a taken rest → weaker a taken rest) : Takes pre x weaker :=
  takes.mono (fun _ _ => True.intro) weaken

theorem within (takes : Takes (fun _ => True) x post) : Takes pre x post :=
  takes.imp fun _ _ _ holds => holds

theorem returns {f : α → β} (takes : Takes pre x fun a taken rest => after (f a) taken rest) :
    Takes pre (x >>= fun a => Pure.pure (f a)) after := by
  intro s b s' ran
  obtain ⟨a, middle, firstRan, returned⟩ := run_bind_eq_ok_iff.mp ran
  cases returned
  exact takes s a s' firstRan

theorem discard {read : List Token → List Token → Prop} (takes : Takes pre x fun _ => read) :
    Takes pre (discard x) fun _ => read :=
  takes.returns

theorem query {ask : σ → α} (asks : ∀ s, x s = .ok (ask s) s)
    (continued : ∀ s, Cursor.messages s = [] →
      Takes (fun tokens => pre tokens ∧ tokens = tokensOf (Cursor.tokens s)) (next (ask s)) after) :
    Takes pre (x >>= next) after := by
  intro s b s' ran clean cleanEnd ends holds
  obtain ⟨a, middle, asked, nextRan⟩ := run_bind_eq_ok_iff.mp ran
  rw [asks] at asked
  cases asked
  exact continued s clean s b s' nextRan clean cleanEnd ends ⟨holds, rfl⟩

section Peek

variable {x : EStateM Diagnostic σ Token} {next : Token → EStateM Diagnostic σ β}

theorem peek
    (continued : ∀ token,
      Takes (fun tokens => pre tokens ∧ headOf tokens = token) (next token) after)
    (asks : ∀ s, x s = .ok (headToken (Cursor.tokens s)) s := by exact fun _ => rfl) :
    Takes pre (x >>= next) after :=
  query asks fun _ _ => (continued _).mono
    (fun _ holds => ⟨holds.1, by rw [holds.2, headToken_eq]⟩) fun _ _ _ holds => holds

theorem peekSecond
    (continued : ∀ token,
      Takes (fun tokens => pre tokens ∧ headOf (tokens.drop 1) = token) (next token) after)
    (asks : ∀ s, x s = .ok (headToken ((Cursor.tokens s).drop 1)) s := by exact fun _ => rfl) :
    Takes pre (x >>= next) after :=
  query asks fun _ _ => (continued _).mono
    (fun _ holds => ⟨holds.1, by rw [holds.2, headToken_eq, tokensOf, tokensOf, map_drop]⟩)
    fun _ _ _ holds => holds

end Peek

theorem advance
    (found : ∀ tokens, pre tokens → headOf tokens = token := by exact fun _ holds => holds.2)
    (goesOn : token ≠ .eof := by simp) :
    Takes pre Reader.advance fun _ taken _ => taken = [token] := by
  intro stream loc rest ran _ _ ends holds
  cases stream with
  | nil => exact absurd rfl ends.ne_nil
  | cons first others =>
    have isToken : first.token = token := found _ holds
    have othersEnd := ends.of_cons (isToken ▸ goesOn)
    have moved : Reader.after (first :: others) = others := after_cons othersEnd.ne_nil
    cases ran
    rw [moved]
    exact ⟨[first], rfl, othersEnd, congrArg (fun token => [token]) isToken⟩

theorem expect (goesOn : token ≠ .eof := by simp) :
    Takes pre (Reader.expect token) fun _ taken _ => taken = [token] := by
  refine .peek fun found => ?_
  by_cases same : found = token
  · rw [if_pos same]
    exact .advance (fun tokens holds => holds.2.trans same) goesOn
  · rw [if_neg same]
    exact .fails

theorem expectIdent :
    Takes pre Reader.expectIdent fun found taken _ => taken = [.ident found.1] := by
  refine .peek fun found => ?_
  cases found with
  | ident name => exact .step .advance fun loc => .pure fun _ => rfl
  | _ => exact .fails

end Takes

end Takes

namespace Grammar

variable {operator : Operator}

/-- What the reader gives is derived from the symbol. -/
abbrev TakesPhrase (reader : Reader Phrase) (symbol : Symbol) : Prop :=
  Takes (fun _ => True) reader fun phrase taken _ => Derives symbol taken phrase.expr.unlocated

/-! ## Operators -/

theorem Joins.of_or (asked : orOperator? token = some operator) :
    Joins .disjunction token operator := by
  cases token <;> cases asked
  exact .or

theorem Joins.of_and (asked : andOperator? token = some operator) :
    Joins .conjunction token operator := by
  cases token <;> cases asked
  exact .and

theorem Joins.of_comparison (asked : comparisonOperator? token = some operator) :
    Joins .comparison token operator := by
  cases token <;> cases asked <;> constructor

theorem Joins.of_sum (asked : sumOperator? token = some operator) : Joins .sum token operator := by
  cases token <;> cases asked <;> constructor

theorem Joins.of_product (asked : productOperator? token = some operator) :
    Joins .product token operator := by
  cases token <;> cases asked <;> constructor

theorem Joins.ne_eof {symbol : Symbol} (joins : Joins symbol token operator) : token ≠ .eof := by
  cases joins <;> exact fun same => by cases same

section Levels

variable {symbol next : Symbol} {operand : Reader Phrase} {operator? : Token → Option Operator}

/-- What has been read on a level, with what the loop reads after it, is of the level. -/
theorem takes_chain (isNext : symbol.tighter? = some next)
    (joins : ∀ token operator, operator? token = some operator → Joins symbol token operator)
    (operandTakes : TakesPhrase operand next) (fuel : Nat) {left : Phrase} {before : List Token}
    (derived : Derives symbol before left.expr.unlocated) :
    Takes (fun _ => True) (chain operand operator? fuel left)
      fun phrase taken _ => Derives symbol (before ++ taken) phrase.expr.unlocated := by
  induction fuel generalizing left before with
  | zero =>
    refine .pure fun _ => ?_
    rwa [append_nil]
  | succ fuel ih =>
    refine .peek fun token => ?_
    cases asked : operator? token with
    | none =>
      refine .pure fun _ => ?_
      rwa [append_nil]
    | some operator =>
      have joinsHere := joins token operator asked
      refine .step (.discard (.advance (fun _ holds => holds.2) joinsHere.ne_eof)) fun _ => ?_
      refine .bind operandTakes.within fun right taken _ rightDerived => ?_
      have both : Derives symbol (before ++ token :: taken)
          (Phrase.binary operator left right).expr.unlocated :=
        .binary joinsHere isNext derived rightDerived
      refine (ih both).imp fun phrase more _ whole => ?_
      simpa using whole

theorem takes_level (isNext : symbol.tighter? = some next)
    (joins : ∀ token operator, operator? token = some operator → Joins symbol token operator)
    (operandTakes : TakesPhrase operand next) : TakesPhrase (level operator? operand) symbol :=
  .bind operandTakes fun _ _ _ derived => .query (fun _ => rfl) fun stream _ =>
    (takes_chain isNext joins operandTakes stream.length (.tighter isNext derived)).within

theorem takes_negations (operandTakes : TakesPhrase operand .comparison) (fuel : Nat) :
    TakesPhrase (negations operand fuel) .negation := by
  have plain : TakesPhrase operand .negation :=
    operandTakes.imp fun _ _ _ derived => .tighter rfl derived
  induction fuel with
  | zero => exact plain
  | succ fuel ih =>
    refine .peek fun token => ?_
    by_cases isNot : token = .notWord
    · rw [if_pos isNot]
      refine .step (.advance fun _ holds => holds.2.trans isNot) fun start => ?_
      exact .returns (ih.imp fun _ _ _ derived => .negated derived)
    · rw [if_neg isNot]
      exact plain.within

theorem takes_negation (operandTakes : TakesPhrase operand .comparison) :
    TakesPhrase (negation operand) .negation :=
  .query (fun _ => rfl) fun stream _ => (takes_negations operandTakes stream.length).within

theorem takes_sum (operandTakes : TakesPhrase operand .primary) : TakesPhrase (sum operand) .sum :=
  takes_level rfl (fun _ _ => .of_sum) (takes_level rfl (fun _ _ => .of_product) operandTakes)

theorem takes_disjunction (operandTakes : TakesPhrase operand .primary) :
    TakesPhrase (disjunction operand) .disjunction := by
  have comparisons : TakesPhrase (comparison operand) .comparison :=
    takes_level rfl (fun _ _ => .of_comparison) (takes_sum operandTakes)
  have conjunctions := takes_level rfl (fun _ _ => .of_and) (takes_negation comparisons)
  exact takes_level rfl (fun _ _ => .of_or) conjunctions

end Levels

/-! ## Lists -/

section Lists

variable {operand : Reader Phrase}
variable {separators : List Token} {asked : Option Fold}

theorem takes_element (operandTakes : TakesPhrase operand .primary) :
    Takes (fun _ => True) (element operand)
      fun value taken _ => Derives .element taken value.unlocated := by
  refine .peek fun token => ?_
  cases token with
  | star => exact .step .advance fun loc => .pure fun _ => .wildcard
  | ellipsis => exact .step .advance fun loc => .pure fun _ => .placeholder
  | _ =>
    exact .returns ((takes_sum operandTakes).imp
      fun _ _ _ derived => .tighter rfl derived)

theorem joined_append {elements : List (List Token)}
    (paired : separators.length = elements.length) (more : List (List Token))
    (others : List Token) :
    joined (elements ++ more) (separators ++ others) =
      joined elements separators ++ joined more others := by
  induction elements generalizing separators with
  | nil =>
    cases separators with
    | nil => rfl
    | cons _ _ => cases paired
  | cons first rest ih =>
    cases separators with
    | nil => cases paired
    | cons separator separators =>
      have restPaired : separators.length = rest.length := Nat.succ.inj paired
      simp [joined, ih restPaired]

theorem separates_of_separator? (separates : separator? token = some asked) :
    Separates token ∧ token ≠ .eof := by
  cases token <;> cases separates <;> simp [Separates]

theorem Tagged.snoc {fold : Option Fold} (tagged : Tagged separators fold)
    (separates : separator? token = some asked)
    (agree : ¬(asked.isSome && fold.isSome && asked != fold) = true) :
    Tagged (separators ++ [token]) (asked.or fold) := by
  cases token <;> cases separates <;> rcases fold with _ | _ | _ <;>
    simp_all [Tagged]

/-- What a loop over elements has read: elements, each with a separator after it. -/
structure Listed (body : ListBody) (items : List (List Token × Expr)) (separators : List Token) :
    Prop where
  values : body.values.map Expr.unlocated = items.map Prod.snd
  count : body.separators = separators.length
  separates : ∀ separator ∈ separators, Separates separator
  tagged : Tagged separators body.fold
  derived : ∀ item ∈ items, Derives .element item.1 item.2

/-- The tokens are elements of a list with separators between them, and maybe one after them. -/
def IsListBody (body : ListBody) (tokens : List Token) : Prop :=
  ∃ items separators, Listed body items separators ∧ items ≠ [] ∧
    (separators.length = items.length ∨ separators.length + 1 = items.length) ∧
    tokens = joined (items.map Prod.fst) separators

theorem Listed.snoc {body : ListBody} {items : List (List Token × Expr)} {tokens : List Token}
    (listed : Listed body items separators) {value : Expr}
    (derived : Derives .element tokens value.unlocated) :
    Listed { body with values := body.values ++ [value] } (items ++ [(tokens, value.unlocated)])
      separators where
  values := by simp [listed.values]
  count := listed.count
  separates := listed.separates
  tagged := listed.tagged
  derived := by
    intro item member
    rcases mem_append.mp member with inItems | isLast
    · exact listed.derived item inItems
    · cases mem_singleton.mp isLast
      exact derived

theorem Listed.separated {body : ListBody} {items : List (List Token × Expr)}
    (listed : Listed body items separators) (separates : separator? token = some asked)
    (agree : ¬(asked.isSome && body.fold.isSome && asked != body.fold) = true) :
    Listed { body with fold := asked.or body.fold, separators := body.separators + 1 } items
      (separators ++ [token]) where
  values := listed.values
  count := by simp [listed.count]
  separates := by
    intro separator member
    rcases mem_append.mp member with inSeparators | isLast
    · exact listed.separates separator inSeparators
    · cases mem_singleton.mp isLast
      exact (separates_of_separator? separates).1
  tagged := listed.tagged.snoc separates agree
  derived := listed.derived

variable {body : ListBody}

theorem takes_elements (operandTakes : TakesPhrase operand .primary) (fuel : Nat)
    {items : List (List Token × Expr)} (listed : Listed body items separators)
    (paired : separators.length = items.length) :
    Takes (fun tokens => tokens.length ≤ fuel) (elements operand fuel body)
      fun body taken _ => IsListBody body (joined (items.map Prod.fst) separators ++ taken) := by
  induction fuel generalizing body items separators with
  | zero =>
    intro stream _ _ _ _ _ ends short
    have some : 0 < stream.length := length_pos_iff.mpr ends.ne_nil
    rw [tokensOf, length_map] at short
    exact absurd short (Nat.not_le_of_lt some)
  | succ fuel ih =>
    refine .bind (takes_element operandTakes).within fun value taken _ derived => ?_
    have longer := listed.snoc derived
    have pairedTokens : separators.length = (items.map Prod.fst).length := by simpa using paired
    have joinedOne := joined_append pairedTokens [taken] []
    rw [append_nil] at joinedOne
    refine .peek fun token => ?_
    dsimp only
    cases separates : separator? token with
    | none =>
      refine .pure fun _ => ⟨_, _, longer, by simp, .inr (by simp [paired]), ?_⟩
      simpa [joined] using joinedOne.symm
    | some asked =>
      have goesOn := (separates_of_separator? separates).2
      refine .step (.advance (fun _ holds => holds.2) goesOn) fun loc => ?_
      split
      · exact .fails
      · next agree =>
        have separated := longer.separated separates agree
        have joinedBoth := joined_append pairedTokens [taken] [token]
        have pairedAgain : (separators ++ [token]).length =
            (items ++ [(taken, value.unlocated)]).length := by
          simp [paired]
        refine .peek fun found => ?_
        by_cases closes : found = .rightBracket
        · rw [if_pos closes]
          refine .pure fun _ => ⟨_, _, separated, by simp, .inl pairedAgain, ?_⟩
          simpa [joined] using joinedBoth.symm
        · rw [if_neg closes]
          refine (ih separated pairedAgain).mono (fun tokens holds => ?_)
            fun body more _ isListBody => ?_
          · have short := holds.1.1
            simp only [length_append, length_cons] at short
            omega
          · simpa [joinedBoth, joined] using isListBody

/-- What the elements stand for in brackets. -/
def ListBody.phrase (body : ListBody) (loc : Location) : Phrase :=
  match body.separators, body.values with
  | 0, [single] => ⟨single, loc⟩
  | _, values => Phrase.exact (.list values body.fold) loc

theorem ListBody.phrase_single (value : Expr) (fold : Option Fold) (loc : Location) :
    ListBody.phrase ⟨[value], fold, 0⟩ loc = ⟨value, loc⟩ :=
  rfl

theorem ListBody.phrase_separated (separated : body.separators ≠ 0) (loc : Location) :
    body.phrase loc = Phrase.exact (.list body.values body.fold) loc := by
  obtain ⟨values, fold, count⟩ := body
  cases count with
  | zero => exact absurd rfl separated
  | succ count => rfl

theorem bracketed_eq (operand : Reader Phrase) :
    bracketed operand = (do
      let opening ← expect .leftBracket
      if (← peek) = .rightBracket then
        fail .emptyList (opening.union (← here))
      let body ← elements operand (← get).length ⟨[], none, 0⟩
      let closing ← expect .rightBracket
      return body.phrase (opening.union closing)) := by
  unfold bracketed ListBody.phrase
  refine bind_congr fun opening => bind_congr fun token => ?_
  split
  · rfl
  · refine bind_congr fun stream => bind_congr fun body => bind_congr fun closing => ?_
    obtain ⟨values, fold, count⟩ := body
    rcases count with _ | count <;> rcases values with _ | ⟨value, _ | ⟨_, _⟩⟩ <;> rfl

/-- Elements in brackets are one element without a separator, or a list. -/
theorem IsListBody.derives {tokens : List Token} (isListBody : IsListBody body tokens)
    (loc : Location) :
    Derives .list (.leftBracket :: tokens ++ [.rightBracket]) (body.phrase loc).expr.unlocated := by
  obtain ⟨items, separators, listed, nonempty, lengths, rfl⟩ := isListBody
  by_cases unseparated : separators = []
  · subst unseparated
    have one : items.length = 1 := by
      have some := length_pos_iff.mpr nonempty
      simp only [length_nil] at lengths
      omega
    obtain ⟨item, rfl⟩ := length_eq_one_iff.mp one
    obtain ⟨value, isValue, sameValue⟩ := map_eq_singleton_iff.mp listed.values
    have isBody : body = ⟨[value], body.fold, 0⟩ := by
      rw [← isValue, ← length_nil, ← listed.count]
    have derived := listed.derived item mem_cons_self
    rw [← sameValue] at derived
    rw [isBody, ListBody.phrase_single]
    exact .single derived
  · have separated : body.separators ≠ 0 := by
      rw [listed.count]
      exact fun none => unseparated (length_eq_zero_iff.mp none)
    have isList : (body.phrase loc).expr.unlocated = .list (items.map Prod.snd) body.fold none := by
      rw [ListBody.phrase_separated separated]
      simp [Phrase.exact, Expr.unlocated, listed.values]
    rw [isList]
    exact .list unseparated lengths listed.separates listed.tagged listed.derived

theorem takes_bracketed (operandTakes : TakesPhrase operand .primary) :
    TakesPhrase (bracketed operand) .list := by
  rw [bracketed_eq]
  refine .step .expect fun opening => .peek fun token => ?_
  by_cases empty : token = .rightBracket
  · rw [if_pos empty]
    exact .fails
  · rw [if_neg empty]
    refine .query (fun _ => rfl) fun stream _ => ?_
    have nothing : Listed ⟨[], none, 0⟩ [] [] :=
      ⟨rfl, rfl, by simp, by simp [Tagged], by simp⟩
    have takes := takes_elements operandTakes stream.length nothing rfl
    refine .bind (takes.mono (fun tokens holds => ?_) fun _ _ _ holds => holds)
      fun body tokens _ isListBody => .step .expect fun closing => .pure fun _ => ?_
    · rw [holds.2, tokensOf, length_map]
      exact Nat.le_refl _
    · exact isListBody.derives (opening.union closing)

end Lists

/-! ## Operands -/

theorem takes_dottedKey :
    Takes (fun _ => True) dottedKey
      fun phrase taken _ => ∃ token, taken = [token] ∧ Keyed token phrase.expr.unlocated := by
  refine .peek fun token => .query (fun _ => rfl) fun _ _ => ?_
  cases token with
  | star =>
    exact .step (.advance fun _ holds => holds.1.2) fun _ => .pure fun _ => ⟨_, rfl, .wildcard⟩
  | ellipsis =>
    exact .step (.advance fun _ holds => holds.1.2) fun _ => .pure fun _ => ⟨_, rfl, .placeholder⟩
  | ident name =>
    exact .step (.advance fun _ holds => holds.1.2) fun _ => .pure fun _ => ⟨_, rfl, .name name⟩
  | _ => exact .fails

theorem takes_reference {operand : Reader Phrase} (operandTakes : TakesPhrase operand .primary) :
    TakesPhrase (reference operand) .primary := by
  refine .bind .expectIdent ?_
  rintro ⟨name, loc⟩ _ _ rfl
  refine .peek fun token => ?_
  cases token with
  | dot =>
    refine .step (.discard .advance) fun _ => .bind takes_dottedKey.within ?_
    rintro key _ _ ⟨token, rfl, keyed⟩
    exact .pure fun _ => .dotted name keyed
  | leftBracket =>
    exact .returns ((takes_bracketed operandTakes).imp
      fun _ _ _ derived => .subscript name derived)
  | _ => exact .pure fun _ => .name name

theorem takes_primary (depth : Nat) : TakesPhrase (primary depth) .primary := by
  induction depth with
  | zero => exact .fails
  | succ depth ih =>
    refine .query (fun _ => rfl) fun _ _ => .peek fun token => ?_
    cases token with
    | number value => exact .step .advance fun loc => .pure fun _ => .number value
    | string value => exact .step .advance fun loc => .pure fun _ => .string value
    | on => exact .step .advance fun loc => .pure fun _ => .on
    | off => exact .step .advance fun loc => .pure fun _ => .off
    | eval text => exact .step .advance fun loc => .pure fun _ => .eval text
    | minus =>
      refine .peekSecond fun second => ?_
      cases second with
      | number value =>
        refine .step (.discard (.advance fun _ holds => holds.1.2)) fun _ => ?_
        exact .step .advance fun stop => .pure fun _ => .negative value
      | _ => exact .fails
    | leftParen =>
      refine .step (.discard .advance) fun _ => ?_
      refine .bind (takes_disjunction ih).within fun inner taken _ derived => ?_
      exact .step .expect fun closing => .pure fun _ => .parenthesized derived
    | leftBracket =>
      exact (takes_bracketed ih).imp
        fun _ _ _ derived => .tighter rfl derived
    | ident name => exact (takes_reference ih).within
    | _ => exact .fails

/-- What is read as an expression is derived from the tokens taken. -/
theorem takes_expression : TakesPhrase expression .disjunction :=
  .query (fun _ => rfl) fun stream _ => (takes_disjunction (takes_primary stream.length)).within

end Grammar

end AutomationScript
