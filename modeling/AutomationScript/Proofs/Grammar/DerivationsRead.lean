import AutomationScript.Proofs.Grammar.Derivations

/-!
# Expressions that are derived are read

Every derivation is read, if the token after it is none that could extend it.  `Accepts` says which
tokens a computation takes, and before which tokens.  A derivation of binary operators grows at its
left end while the reader goes from left to right, so `RunsTo` says where the loop of a level stands
once the tokens of a derivation are read, whatever comes next.
-/

namespace AutomationScript

open List Reader

/-! ## What is accepted -/

section Accepts

variable {σ α β : Type} [Cursor σ] {x : EStateM Diagnostic σ α}
  {next : α → EStateM Diagnostic σ β} {tokens more : List Token} {follow wider : Token → Prop}
  {post : α → Prop} {after : β → Prop} {messages messages' : List String}

/-- The tokens stand before the rest, and the rest starts with a token that may follow. -/
structure Before (s : σ) (tokens : List Token) (follow : Token → Prop) (rest : List PlacedToken) :
    Prop where
  some : rest ≠ []
  follows : follow (headToken rest)
  taken : ∃ taken, Cursor.tokens s = taken ++ rest ∧ tokensOf taken = tokens

/-- Before what may follow, the computation takes the tokens, reports the messages, and its result
satisfies `post`. -/
def Accepts (x : EStateM Diagnostic σ α) (tokens : List Token) (follow : Token → Prop)
    (post : α → Prop) (messages : List String) : Prop :=
  ∀ s rest, Before s tokens follow rest → ∃ a s', x s = .ok a s' ∧ Cursor.tokens s' = rest ∧
    Cursor.messages s' = Cursor.messages s ++ messages ∧ post a

/-- What may come first of the tokens and what follows them. -/
def opens (tokens : List Token) (follow : Token → Prop) : Token → Prop :=
  match tokens with
  | [] => follow
  | first :: _ => (· = first)

variable {s : σ} {rest : List PlacedToken}

theorem Before.opens (before : Before s tokens follow rest) :
    opens tokens follow (headToken (Cursor.tokens s)) := by
  obtain ⟨taken, whole, rfl⟩ := before.taken
  rw [whole]
  cases taken with
  | nil => exact before.follows
  | cons first taken => rfl

theorem Before.second {first : Token} (before : Before s (first :: tokens) follow rest) :
    AutomationScript.opens tokens follow (headToken ((Cursor.tokens s).drop 1)) := by
  obtain ⟨taken, whole, isTaken⟩ := before.taken
  obtain ⟨_, taken, rfl, _, rfl⟩ := map_eq_cons_iff.mp isTaken
  rw [whole]
  cases taken with
  | nil => exact before.follows
  | cons second taken => rfl

theorem Before.split (before : Before s (tokens ++ more) follow rest) :
    ∃ middle, Before s tokens (AutomationScript.opens more follow) middle ∧
      ∀ s' : σ, Cursor.tokens s' = middle → Before s' more follow rest := by
  obtain ⟨some, follows, taken, whole, isTaken⟩ := before
  obtain ⟨front, back, rfl, isFront, isBack⟩ := map_eq_append_iff.mp isTaken
  have opened : AutomationScript.opens more follow (headToken (back ++ rest)) := by
    cases back with
    | nil =>
      cases isBack
      exact follows
    | cons first back =>
      cases isBack
      rfl
  refine ⟨back ++ rest, ⟨by simp [some], opened, front, ?_, isFront⟩,
    fun s' isMiddle => ⟨some, follows, back, isMiddle, isBack⟩⟩
  rw [whole, append_assoc]

theorem Before.length_lt (before : Before s tokens follow rest) :
    tokens.length < (Cursor.tokens s).length := by
  obtain ⟨taken, whole, rfl⟩ := before.taken
  have some := length_pos_iff.mpr before.some
  rw [whole, tokensOf, length_map, length_append]
  omega

namespace Accepts

theorem pure {a : α} (holds : post a) :
    Accepts (Pure.pure a : EStateM Diagnostic σ α) [] follow post [] := by
  rintro s rest ⟨_, _, taken, whole, nothing⟩
  obtain rfl := map_eq_nil_iff.mp nothing
  exact ⟨a, s, rfl, whole, (append_nil _).symm, holds⟩

theorem narrow (accepts : Accepts x tokens wider post messages)
    (narrows : ∀ t, follow t → wider t) : Accepts x tokens follow post messages :=
  fun s rest before => accepts s rest ⟨before.some, narrows _ before.follows, before.taken⟩

theorem mono {weaker : α → Prop} (accepts : Accepts x tokens follow post messages)
    (weaken : ∀ a, post a → weaker a) : Accepts x tokens follow weaker messages := by
  intro s rest before
  obtain ⟨a, s', ran, isRest, told, holds⟩ := accepts s rest before
  exact ⟨a, s', ran, isRest, told, weaken a holds⟩

theorem bind (first : Accepts x tokens (opens more follow) post messages)
    (second : ∀ a, post a → Accepts (next a) more follow after messages') :
    Accepts (x >>= next) (tokens ++ more) follow after (messages ++ messages') := by
  intro s rest before
  obtain ⟨between, beforeFirst, beforeSecond⟩ := before.split
  obtain ⟨a, middle, ran, isMiddle, told, holds⟩ := first s between beforeFirst
  obtain ⟨b, s', nextRan, isRest, toldMore, holdsAfter⟩ :=
    second a holds middle rest (beforeSecond middle isMiddle)
  refine ⟨b, s', run_bind_eq_ok_iff.mpr ⟨a, middle, ran, nextRan⟩, isRest, ?_, holdsAfter⟩
  rw [toldMore, told, append_assoc]

theorem bind_last (first : Accepts x tokens follow post messages)
    (second : ∀ a, post a → Accepts (next a) [] follow after messages') :
    Accepts (x >>= next) tokens follow after (messages ++ messages') := by
  have both : Accepts (x >>= next) (tokens ++ []) follow after (messages ++ messages') :=
    bind first second
  rwa [append_nil] at both

theorem returns {f : α → β} (accepts : Accepts x tokens follow (fun a => after (f a)) messages) :
    Accepts (x >>= fun a => Pure.pure (f a)) tokens follow after messages := by
  have both : Accepts (x >>= fun a => Pure.pure (f a)) tokens follow after (messages ++ []) :=
    accepts.bind_last fun _ holds => pure holds
  rwa [append_nil] at both

theorem map {f : α → β} (accepts : Accepts x tokens follow (fun a => after (f a)) messages) :
    Accepts (f <$> x) tokens follow after messages := by
  rw [← bind_pure_comp]
  exact accepts.returns

theorem discard (accepts : Accepts x tokens follow post messages) :
    Accepts (discard x) tokens follow (fun _ : PUnit => True) messages :=
  map (accepts.mono fun _ _ => trivial)

theorem query {ask : σ → α} (asks : ∀ s, x s = .ok (ask s) s)
    (continued : ∀ s rest, Before s tokens follow rest →
      Accepts (next (ask s)) tokens follow after messages) :
    Accepts (x >>= next) tokens follow after messages := by
  intro s rest before
  obtain ⟨b, s', ran, others⟩ := continued s rest before s rest before
  exact ⟨b, s', run_bind_eq_ok_iff.mpr ⟨ask s, s, asks s, ran⟩, others⟩

section Peek

variable {x : EStateM Diagnostic σ Token} {next : Token → EStateM Diagnostic σ β} {first : Token}

theorem peek (continued : Accepts (next first) (first :: more) follow after messages)
    (asks : ∀ s, x s = .ok (headToken (Cursor.tokens s)) s := by exact fun _ => rfl) :
    Accepts (x >>= next) (first :: more) follow after messages :=
  query asks fun _ _ before => (before.opens : _ = first) ▸ continued

theorem peek_end (continued : ∀ t, follow t → Accepts (next t) [] follow after messages)
    (asks : ∀ s, x s = .ok (headToken (Cursor.tokens s)) s := by exact fun _ => rfl) :
    Accepts (x >>= next) [] follow after messages :=
  query asks fun _ _ before => continued _ before.opens

theorem peek_second
    (continued : ∀ t, AutomationScript.opens more follow t →
      Accepts (next t) (first :: more) follow after messages)
    (asks : ∀ s, x s = .ok (headToken ((Cursor.tokens s).drop 1)) s := by exact fun _ => rfl) :
    Accepts (x >>= next) (first :: more) follow after messages :=
  query asks fun _ _ before => continued _ before.second

end Peek

theorem advance {t : Token} : Accepts Reader.advance [t] follow (fun _ => True) [] := by
  rintro s rest ⟨some, _, taken, whole, isTaken⟩
  obtain ⟨first, rfl, -⟩ := map_eq_singleton_iff.mp isTaken
  refine ⟨first.loc, rest, ?_, rfl, rfl, trivial⟩
  obtain rfl : s = first :: rest := whole
  change EStateM.Result.ok first.loc (Reader.after (first :: rest)) = _
  rw [after_cons some]

theorem expect (t : Token) : Accepts (Reader.expect t) [t] follow (fun _ => True) [] := by
  refine peek ?_
  rw [if_pos rfl]
  exact advance

theorem expectIdent (name : String) :
    Accepts Reader.expectIdent [.ident name] follow (fun named => named.1 = name) [] :=
  peek (advance.bind_last fun _ _ => pure rfl)

end Accepts

end Accepts

namespace Grammar

/-! ## Tokens at the start and after the end -/

def startsOperand : Token → Bool
  | .number _ | .minus | .string _ | .on | .off | .eval _ | .leftParen | .leftBracket
  | .ident _ => true
  | _ => false

namespace Symbol

def startsWith (symbol : Symbol) (token : Token) : Bool :=
  match symbol with
  | .disjunction | .conjunction | .negation => startsOperand token || token = .notWord
  | .comparison | .sum | .product | .primary => startsOperand token
  | .list => token = .leftBracket
  | .element => startsOperand token || token = .star || token = .ellipsis

/-- Whether the token can go on with what the symbol stands for. -/
def extendedBy (symbol : Symbol) (token : Token) : Bool :=
  match symbol with
  | .disjunction =>
    (orOperator? token).isSome || (andOperator? token).isSome ||
      (comparisonOperator? token).isSome || (sumOperator? token).isSome ||
      (productOperator? token).isSome || token = .dot || token = .leftBracket
  | .conjunction =>
    (andOperator? token).isSome || (comparisonOperator? token).isSome ||
      (sumOperator? token).isSome || (productOperator? token).isSome || token = .dot ||
      token = .leftBracket
  | .negation | .comparison =>
    (comparisonOperator? token).isSome || (sumOperator? token).isSome ||
      (productOperator? token).isSome || token = .dot || token = .leftBracket
  | .sum | .element =>
    (sumOperator? token).isSome || (productOperator? token).isSome || token = .dot ||
      token = .leftBracket
  | .product => (productOperator? token).isSome || token = .dot || token = .leftBracket
  | .primary => token = .dot || token = .leftBracket
  | .list => false

abbrev Stops (symbol : Symbol) (token : Token) : Prop :=
  symbol.extendedBy token = false

end Symbol

theorem startsWith_of_tighter {symbol next : Symbol} (isNext : symbol.tighter? = some next)
    {token : Token} (starts : next.startsWith token = true) : symbol.startsWith token = true := by
  cases symbol with
  | primary =>
    cases isNext
    simp only [Symbol.startsWith, decide_eq_true_eq] at starts
    rw [starts]
    rfl
  | list => cases isNext
  | _ =>
    cases isNext
    simp_all [Symbol.startsWith]

theorem Derives.starts {symbol : Symbol} {tokens : List Token} {e : Expr}
    (derives : Derives symbol tokens e) :
    ∃ first rest, tokens = first :: rest ∧ symbol.startsWith first = true := by
  induction derives with
  | tighter isNext _ ih =>
    obtain ⟨first, rest, rfl, starts⟩ := ih
    exact ⟨first, rest, rfl, startsWith_of_tighter isNext starts⟩
  | binary _ _ _ _ ih _ =>
    obtain ⟨first, rest, rfl, starts⟩ := ih
    exact ⟨first, _, rfl, starts⟩
  | _ => exact ⟨_, _, rfl, rfl⟩

/-! ## Levels -/

/-- Before what may follow, the reader takes the tokens and gives the expression for them. -/
abbrev Gives {α : Type} (reader : Reader α) (expr : α → Expr) (tokens : List Token) (e : Expr)
    (follow : Token → Prop) : Prop :=
  Accepts reader tokens follow (fun a => (expr a).unlocated = e) []

section Levels

variable {operand : Reader Phrase} {operator? : Token → Option Operator} {tokens : List Token}
  {e : Expr} {follow : Token → Prop}

/-- After these tokens the loop of the level stands there with the expression, ready to go on. -/
def RunsTo (operator? : Token → Option Operator) (operand : Reader Phrase) (tokens : List Token)
    (e : Expr) (follow : Token → Prop) : Prop :=
  ∀ ⦃more : List Token⦄ ⦃next : Token → Prop⦄ ⦃post : Phrase → Prop⦄,
    (∀ t, opens more next t → follow t) →
    (∀ left fuel, left.expr.unlocated = e → more.length < fuel →
      Accepts (chain operand operator? fuel left) more next post []) →
    Accepts (level operator? operand) (tokens ++ more) next post []

theorem RunsTo.of_operand (gives : Gives operand Phrase.expr tokens e follow) :
    RunsTo operator? operand tokens e follow := by
  intro more next post meets steps
  refine (gives.narrow meets).bind fun left isLeft => .query (fun _ => rfl) fun s rest before => ?_
  exact steps left _ isLeft before.length_lt

theorem RunsTo.binary {left right : List Token} {a b : Expr} {token : Token} {operator : Operator}
    (runsTo : RunsTo operator? operand left a follow) (asked : operator? token = some operator)
    (stops : follow token) (gives : Gives operand Phrase.expr right b follow) :
    RunsTo operator? operand (left ++ token :: right) (.compound operator [a, b] none) follow := by
  intro more next post meets steps
  rw [append_assoc]
  refine runsTo (fun _ same => same ▸ stops) fun left fuel isLeft enough => ?_
  simp only [cons_append, length_cons, length_append] at enough
  obtain ⟨fuel, rfl⟩ : ∃ less, fuel = less + 1 := ⟨fuel - 1, by omega⟩
  refine .peek ?_
  rw [asked]
  refine .bind (.discard .advance) fun _ _ => (gives.narrow meets).bind fun right isRight => ?_
  refine steps _ fuel ?_ (by omega)
  simp [Phrase.binary, Phrase.exact, Expr.unlocated, isLeft, isRight]

theorem RunsTo.gives (runsTo : RunsTo operator? operand tokens e follow) {narrower : Token → Prop}
    (stops : ∀ token, narrower token → follow token ∧ operator? token = none) :
    Gives (level operator? operand) Phrase.expr tokens e narrower := by
  have reached : Gives (level operator? operand) Phrase.expr (tokens ++ []) e narrower := by
    refine runsTo (fun t stop => (stops t stop).1) fun left fuel isLeft enough => ?_
    obtain ⟨fuel, rfl⟩ := Nat.exists_eq_add_one_of_ne_zero (Nat.ne_of_gt enough)
    refine .peek_end fun t stop => ?_
    rw [(stops t stop).2]
    exact .pure isLeft
  rwa [append_nil] at reached

/-- With fuel for them the tokens are read as the expression, whether or not they start with `not`. -/
def Negates (operand : Reader Phrase) (tokens : List Token) (e : Expr) (follow : Token → Prop) :
    Prop :=
  ∀ fuel, tokens.length < fuel → Gives (negations operand fuel) Phrase.expr tokens e follow

theorem Negates.of_operand {first : Token}
    (gives : Gives operand Phrase.expr (first :: tokens) e follow) (notNot : first ≠ .notWord) :
    Negates operand (first :: tokens) e follow := by
  intro fuel enough
  obtain ⟨fuel, rfl⟩ := Nat.exists_eq_add_of_lt enough
  refine .peek ?_
  rw [if_neg notNot]
  exact gives

theorem Negates.negated (negates : Negates operand tokens e follow) :
    Negates operand (.notWord :: tokens) (.compound .not [e] none) follow := by
  intro fuel enough
  rw [length_cons] at enough
  obtain ⟨fuel, rfl⟩ : ∃ less, fuel = less + 1 := ⟨fuel - 1, by omega⟩
  refine .peek (.bind .advance fun start _ => ?_)
  refine (negates fuel (by omega)).bind_last fun inner isInner => .pure ?_
  simp [Phrase.exact, Expr.unlocated, isInner]

theorem Negates.gives (negates : Negates operand tokens e follow) :
    Gives (negation operand) Phrase.expr tokens e follow :=
  .query (fun _ => rfl) fun _ _ before => negates _ before.length_lt

end Levels

/-! ## Lists -/

section Lists

variable {operand : Reader Phrase} {follow : Token → Prop}

theorem Gives.element_of_sum {first : Token} {tokens : List Token} {e : Expr}
    (gives : Gives (sum operand) Phrase.expr (first :: tokens) e follow)
    (starts : startsOperand first = true) :
    Gives (element operand) id (first :: tokens) e follow := by
  have reads : Gives (do return (← sum operand).expr : Reader Expr) id (first :: tokens) e follow :=
    gives.bind_last fun _ isPhrase => .pure isPhrase
  refine .peek ?_
  cases first with
  | star | ellipsis => cases starts
  | _ => exact reads

variable {separators : List Token} {fold : Option Fold}

/-- What the separators of a list ask for, one by one and together. -/
theorem Tagged.asks (tagged : Tagged separators fold)
    (separates : ∀ separator ∈ separators, Separates separator) :
    (∀ separator ∈ separators,
        separator? separator = some none ∨ separator? separator = some fold) ∧
      (fold = none ∨ ∃ separator ∈ separators, separator? separator = some fold) := by
  constructor
  · intro separator member
    rcases separates separator member with rfl | rfl | rfl
    · exact .inl rfl
    · rcases fold with _ | _ | _
      · exact absurd member tagged.1
      · exact .inr rfl
      · exact absurd member tagged.2
    · rcases fold with _ | _ | _
      · exact absurd member tagged.2
      · exact absurd member tagged.2
      · exact .inr rfl
  · rcases fold with _ | _ | _
    · exact .inl rfl
    · exact .inr ⟨_, tagged.1, rfl⟩
    · exact .inr ⟨_, tagged.1, rfl⟩

/-- The fold of the separators so far is the one of the list, or it is still to be asked for. -/
def Pending (current fold : Option Fold) (separators : List Token) : Prop :=
  current = fold ∨ current = none ∧ ∃ separator ∈ separators, separator? separator = some fold

variable {current asked : Option Fold}

theorem Pending.step {token : Token} (pending : Pending current fold (token :: separators))
    (separates : separator? token = some asked) (isAsked : asked = none ∨ asked = fold) :
    Pending (asked.or current) fold separators ∧
      (asked.isSome && current.isSome && asked != current) = false := by
  rcases pending with rfl | ⟨rfl, separator, member, asksFold⟩
  · rcases isAsked with rfl | rfl
    · exact ⟨.inl rfl, rfl⟩
    · exact ⟨.inl (by simp), by simp⟩
  · rcases isAsked with rfl | rfl
    · refine ⟨?_, rfl⟩
      rcases mem_cons.mp member with rfl | later
      · exact .inl (Option.some.inj (separates.symm.trans asksFold))
      · exact .inr ⟨rfl, separator, later, asksFold⟩
    · exact ⟨.inl (by simp), by simp⟩

theorem Pending.eq (pending : Pending current fold []) : current = fold := by
  rcases pending with same | ⟨_, _, impossible, _⟩
  · exact same
  · cases impossible

theorem separator_stops {token : Token} (separates : separator? token = some asked) :
    Symbol.element.Stops token := by
  cases token <;> cases separates <;> rfl

/-- The tokens are read as an element of a list. -/
structure ReadsElement (operand : Reader Phrase) (tokens : List Token) (e : Expr) : Prop where
  gives : Gives (element operand) id tokens e Symbol.element.Stops
  starts : ∃ first rest, tokens = first :: rest ∧ first ≠ .rightBracket

theorem exists_joined {element : List Token} {first : Token} {rest : List Token}
    (isElement : element = first :: rest) (elements : List (List Token)) (separators : List Token) :
    ∃ more, joined (element :: elements) separators = first :: more := by
  subst isElement
  cases separators <;> exact ⟨_, rfl⟩

variable {items : List (List Token × Expr)}

theorem accepts_elements (each : ∀ item ∈ items, ReadsElement operand item.1 item.2)
    (nonempty : items ≠ [])
    (lengths : separators.length = items.length ∨ separators.length + 1 = items.length)
    (asks : ∀ separator ∈ separators,
      separator? separator = some none ∨ separator? separator = some fold)
    {body : ListBody} (pending : Pending body.fold fold separators) {fuel : Nat}
    (enough : (joined (items.map Prod.fst) separators).length < fuel) :
    Accepts (elements operand fuel body) (joined (items.map Prod.fst) separators)
      (· = .rightBracket) (fun result =>
        result.values.map Expr.unlocated = body.values.map Expr.unlocated ++ items.map Prod.snd ∧
        result.fold = fold ∧ result.separators = body.separators + separators.length) [] := by
  induction items generalizing separators body fuel with
  | nil => exact absurd rfl nonempty
  | cons item items ih =>
    obtain ⟨fuel, rfl⟩ : ∃ less, fuel = less + 1 := ⟨fuel - 1, by omega⟩
    obtain ⟨here, eachMore⟩ := forall_mem_cons.mp each
    cases separators with
    | nil =>
      have last : items = [] := by
        apply length_eq_zero_iff.mp
        simp only [length_nil, length_cons] at lengths
        omega
      subst last
      refine .bind_last (here.gives.narrow (by rintro _ rfl; rfl)) fun value isValue => ?_
      refine .peek_end fun t closes => ?_
      subst closes
      exact .pure ⟨by simpa using isValue, pending.eq, rfl⟩
    | cons separator separators =>
      obtain ⟨asksHere, asksMore⟩ := forall_mem_cons.mp asks
      obtain ⟨asked, separates, isAsked⟩ :
          ∃ asked, separator? separator = some asked ∧ (asked = none ∨ asked = fold) := by
        rcases asksHere with asksNone | asksFold
        · exact ⟨none, asksNone, .inl rfl⟩
        · exact ⟨fold, asksFold, .inr rfl⟩
      obtain ⟨stillPending, agree⟩ := pending.step separates isAsked
      have stops := separator_stops separates
      refine .bind (here.gives.narrow (by rintro _ rfl; exact stops)) fun value isValue => ?_
      have isValue : value.unlocated = item.2 := isValue
      refine .peek ?_
      rw [separates]
      refine .bind .advance fun _ _ => ?_
      dsimp only
      rw [agree]
      cases items with
      | nil =>
        obtain rfl : separators = [] := by
          apply length_eq_zero_iff.mp
          simp only [length_nil, length_cons] at lengths
          omega
        refine .peek_end fun t closes => ?_
        rw [if_pos closes]
        exact .pure ⟨by simp [isValue], stillPending.eq, rfl⟩
      | cons next items =>
        obtain ⟨first, _, starts, notClosing⟩ := (eachMore next mem_cons_self).starts
        obtain ⟨more, isMore⟩ := exists_joined starts (items.map Prod.fst) separators
        have lengthsMore : separators.length = (next :: items).length ∨
            separators.length + 1 = (next :: items).length := by
          simp only [length_cons] at lengths ⊢
          omega
        have enoughMore : (joined ((next :: items).map Prod.fst) separators).length < fuel := by
          rw [map_cons, joined, length_append, length_cons] at enough
          omega
        let longer : ListBody := ⟨body.values ++ [value], asked.or body.fold, body.separators + 1⟩
        have later : Accepts (elements operand fuel longer) _ _ _ _ :=
          ih eachMore (cons_ne_nil _ _) lengthsMore asksMore stillPending enoughMore
        rw [map_cons, isMore] at later ⊢
        refine .peek ?_
        rw [if_neg notClosing]
        refine later.mono fun result read => ⟨by simpa [longer, isValue] using read.1, read.2.1, ?_⟩
        simp only [read.2.2, longer, length_cons]
        omega

theorem sublist_joined {elements : List (List Token)} {element : List Token}
    (member : element ∈ elements)
    (lengths : separators.length = elements.length ∨ separators.length + 1 = elements.length) :
    element.Sublist (joined elements separators) := by
  induction elements generalizing separators with
  | nil => cases member
  | cons first elements ih =>
    cases separators with
    | nil =>
      have last : elements = [] := by
        apply length_eq_zero_iff.mp
        simp only [length_nil, length_cons] at lengths
        omega
      subst last
      cases mem_singleton.mp member
      exact List.Sublist.refl _
    | cons separator separators =>
      rw [joined]
      rcases mem_cons.mp member with rfl | later
      · exact sublist_append_left _ _
      · have lengthsMore : separators.length = elements.length ∨
            separators.length + 1 = elements.length := by
          simp only [length_cons] at lengths
          omega
        exact ((ih later lengthsMore).cons _).trans (sublist_append_right _ _)

theorem accepts_bracketed (each : ∀ item ∈ items, ReadsElement operand item.1 item.2)
    (nonempty : items ≠ [])
    (lengths : separators.length = items.length ∨ separators.length + 1 = items.length)
    (separates : ∀ separator ∈ separators, Separates separator) (tagged : Tagged separators fold) :
    Accepts (bracketed operand)
      (.leftBracket :: joined (items.map Prod.fst) separators ++ [.rightBracket]) follow
      (fun phrase => ∃ (body : ListBody) (loc : Location), phrase = body.phrase loc ∧
        body.values.map Expr.unlocated = items.map Prod.snd ∧ body.fold = fold ∧
        body.separators = separators.length) [] := by
  obtain ⟨asks, asked⟩ := tagged.asks separates
  have pending : Pending (⟨[], none, 0⟩ : ListBody).fold fold separators := by
    rcases asked with rfl | later
    · exact .inl rfl
    · exact .inr ⟨rfl, later⟩
  have accepts := fun fuel (enough : (joined (items.map Prod.fst) separators).length < fuel) =>
    accepts_elements each nonempty lengths asks pending enough
  obtain ⟨item, items, rfl⟩ := exists_cons_of_ne_nil nonempty
  obtain ⟨first, _, isItem, notClosing⟩ := (each item mem_cons_self).starts
  obtain ⟨more, isMore⟩ := exists_joined isItem (items.map Prod.fst) separators
  rw [map_cons, isMore] at accepts ⊢
  rw [bracketed_eq]
  refine .bind (.expect .leftBracket) fun opening _ => .peek ?_
  rw [if_neg notClosing]
  refine .query (fun _ => rfl) fun s rest before => ?_
  have enough : (first :: more ++ [Token.rightBracket]).length < s.length := before.length_lt
  rw [length_append] at enough
  have closes : ∀ t, opens [.rightBracket] follow t → t = .rightBracket := fun _ same => same
  refine .bind ((accepts _ (by omega)).narrow closes) fun body read => ?_
  exact .bind_last (.expect .rightBracket) fun closing _ => .pure
    ⟨body, _, rfl, by simpa using read⟩

theorem Gives.list (each : ∀ item ∈ items, ReadsElement operand item.1 item.2)
    (separated : separators ≠ [])
    (lengths : separators.length = items.length ∨ separators.length + 1 = items.length)
    (separates : ∀ separator ∈ separators, Separates separator) (tagged : Tagged separators fold) :
    Gives (bracketed operand) Phrase.expr
      (.leftBracket :: joined (items.map Prod.fst) separators ++ [.rightBracket])
      (.list (items.map Prod.snd) fold none) follow := by
  have positive := length_pos_iff.mpr separated
  have nonempty : items ≠ [] := length_pos_iff.mp (by omega)
  refine (accepts_bracketed each nonempty lengths separates tagged).mono ?_
  rintro _ ⟨body, loc, rfl, values, isFold, count⟩
  rw [ListBody.phrase_separated (by omega)]
  simp [Phrase.exact, Expr.unlocated, values, isFold]

theorem Gives.single {tokens : List Token} {e : Expr} (reads : ReadsElement operand tokens e) :
    Gives (bracketed operand) Phrase.expr (.leftBracket :: tokens ++ [.rightBracket]) e follow := by
  have each : ∀ item ∈ [(tokens, e)], ReadsElement operand item.1 item.2 :=
    forall_mem_singleton.mpr reads
  have none : Tagged [] none := by simp [Tagged]
  refine (accepts_bracketed each (cons_ne_nil _ _) (.inr rfl) (forall_mem_nil _) none).mono ?_
  rintro _ ⟨⟨values, fold, count⟩, loc, rfl, isValues, rfl, rfl⟩
  obtain ⟨value, rfl, isValue⟩ := map_eq_singleton_iff.mp isValues
  exact isValue

end Lists

/-! ## Operands -/

section Operands

variable {depth : Nat} {follow : Token → Prop}

theorem Gives.negative (value : Number) :
    Gives (primary (depth + 1)) Phrase.expr [.minus, .number value] (.number value.negate none)
      follow := by
  refine .query (fun _ => rfl) fun _ _ _ => .peek ?_
  refine .peek_second ?_
  rintro _ rfl
  exact .bind (.discard .advance) fun _ _ => .bind_last .advance fun _ _ => .pure rfl

variable {tokens : List Token}

theorem Gives.parenthesized {e : Expr}
    (gives : Gives (disjunction (primary depth)) Phrase.expr tokens e Symbol.disjunction.Stops) :
    Gives (primary (depth + 1)) Phrase.expr (.leftParen :: tokens ++ [.rightParen]) e follow := by
  refine .query (fun _ => rfl) fun _ _ _ => .peek ?_
  refine .bind (.discard .advance) fun _ _ => ?_
  refine .bind (gives.narrow (by rintro _ rfl; rfl)) fun inner isInner => ?_
  exact .bind_last (.expect .rightParen) fun closing _ => .pure isInner

theorem Gives.primary_of_list {e : Expr}
    (gives : Gives (bracketed (primary depth)) Phrase.expr (.leftBracket :: tokens) e
      Symbol.list.Stops) :
    Gives (primary (depth + 1)) Phrase.expr (.leftBracket :: tokens) e follow := by
  refine .query (fun _ => rfl) fun _ _ _ => .peek ?_
  exact gives.narrow fun _ _ => rfl

theorem Gives.name (name : String) :
    Gives (primary (depth + 1)) Phrase.expr [.ident name] (.ident ⟨name, none⟩ none)
      Symbol.primary.Stops := by
  refine .query (fun _ => rfl) fun _ _ _ => .peek ?_
  refine .bind_last (.expectIdent name) fun named isName => .peek_end fun t stops => ?_
  obtain ⟨_, loc⟩ := named
  cases isName
  cases t with
  | dot | leftBracket => cases stops
  | _ => exact .pure rfl

theorem Gives.dotted (base : String) {token : Token} {key : Expr} (keyed : Keyed token key) :
    Gives (primary (depth + 1)) Phrase.expr [.ident base, .dot, token]
      (.subscript ⟨base, none⟩ key none) follow := by
  have keyGives : Gives dottedKey Phrase.expr [token] key follow := by
    refine .peek (.query (fun _ => rfl) fun _ _ _ => ?_)
    cases keyed <;> exact .bind_last .advance fun _ _ => .pure rfl
  refine .query (fun _ => rfl) fun _ _ _ => .peek ?_
  refine .bind (.expectIdent base) fun named isName => .peek ?_
  obtain ⟨_, loc⟩ := named
  cases isName
  refine .bind (.discard .advance) fun _ _ => .bind_last keyGives fun key isKey => .pure ?_
  simp [Phrase.exact, Expr.unlocated, Ident.unlocated, isKey]

theorem Gives.subscript (base : String) {key : Expr}
    (gives : Gives (bracketed (primary depth)) Phrase.expr (.leftBracket :: tokens) key
      Symbol.list.Stops) :
    Gives (primary (depth + 1)) Phrase.expr (.ident base :: .leftBracket :: tokens)
      (.subscript ⟨base, none⟩ key none) follow := by
  refine .query (fun _ => rfl) fun _ _ _ => .peek ?_
  refine .bind (.expectIdent base) fun named isName => .peek ?_
  obtain ⟨_, loc⟩ := named
  cases isName
  refine .bind_last (gives.narrow fun _ _ => rfl) fun key isKey => .pure ?_
  simp [Phrase.exact, Expr.unlocated, Ident.unlocated, isKey]

end Operands

/-! ## Derivations -/

section Derivations

variable {depth : Nat} {tokens : List Token} {e : Expr}

/-- The reader of what the symbol stands for gives the expression for these tokens. -/
def IsRead (depth : Nat) (tokens : List Token) (e : Expr) (symbol : Symbol) : Prop :=
  match symbol with
  | .disjunction => Gives (disjunction (primary depth)) Phrase.expr tokens e symbol.Stops
  | .conjunction =>
    Gives (level andOperator? (negation (comparison (primary depth)))) Phrase.expr tokens e
      symbol.Stops
  | .negation => Gives (negation (comparison (primary depth))) Phrase.expr tokens e symbol.Stops
  | .comparison => Gives (comparison (primary depth)) Phrase.expr tokens e symbol.Stops
  | .sum => Gives (sum (primary depth)) Phrase.expr tokens e symbol.Stops
  | .product => Gives (product (primary depth)) Phrase.expr tokens e symbol.Stops
  | .primary => Gives (primary depth) Phrase.expr tokens e symbol.Stops
  | .list => Gives (bracketed (primary (depth - 1))) Phrase.expr tokens e symbol.Stops
  | .element => Gives (element (primary depth)) id tokens e symbol.Stops

/-- As `IsRead`, but on a level of operators the loop of the level is ready to go on. -/
def IsReached (depth : Nat) (tokens : List Token) (e : Expr) (symbol : Symbol) : Prop :=
  match symbol with
  | .disjunction =>
    RunsTo orOperator? (level andOperator? (negation (comparison (primary depth)))) tokens e
      Symbol.conjunction.Stops
  | .conjunction =>
    RunsTo andOperator? (negation (comparison (primary depth))) tokens e Symbol.negation.Stops
  | .negation => Negates (comparison (primary depth)) tokens e symbol.Stops
  | .comparison => RunsTo comparisonOperator? (sum (primary depth)) tokens e Symbol.sum.Stops
  | .sum => RunsTo sumOperator? (product (primary depth)) tokens e Symbol.product.Stops
  | .product => RunsTo productOperator? (primary depth) tokens e Symbol.primary.Stops
  | _ => IsRead depth tokens e symbol

variable {symbol next : Symbol}

/-- A token that does not extend what a level stands for ends its loop and its last operand. -/
theorem stops_of_unextended (isNext : symbol.tighter? = some next)
    {operator? : Token → Option Operator}
    (joins : ∀ token operator, operator? token = some operator → Joins symbol token operator)
    (token : Token) (stops : symbol.Stops token) : next.Stops token ∧ operator? token = none := by
  constructor
  · cases symbol <;> cases isNext <;> simp_all [Symbol.Stops, Symbol.extendedBy]
  · cases asked : operator? token with
    | none => rfl
    | some operator => cases joins token operator asked <;> cases stops

theorem IsReached.isRead (reached : IsReached depth tokens e symbol) :
    IsRead depth tokens e symbol := by
  cases symbol with
  | disjunction => exact RunsTo.gives reached (stops_of_unextended rfl fun _ _ => .of_or)
  | conjunction => exact RunsTo.gives reached (stops_of_unextended rfl fun _ _ => .of_and)
  | negation => exact Negates.gives reached
  | comparison => exact RunsTo.gives reached (stops_of_unextended rfl fun _ _ => .of_comparison)
  | sum => exact RunsTo.gives reached (stops_of_unextended rfl fun _ _ => .of_sum)
  | product => exact RunsTo.gives reached (stops_of_unextended rfl fun _ _ => .of_product)
  | _ => exact reached

theorem exists_less {first : Token} {rest : List Token} (enough : (first :: rest).length ≤ depth) :
    ∃ less, depth = less + 1 := by
  simp only [length_cons] at enough
  exact ⟨depth - 1, by omega⟩

theorem IsRead.tighter (isNext : symbol.tighter? = some next) (derives : Derives next tokens e)
    (enough : tokens.length ≤ depth) (isRead : IsRead depth tokens e next) :
    IsReached depth tokens e symbol := by
  obtain ⟨first, rest, rfl, starts⟩ := derives.starts
  cases symbol with
  | negation =>
    cases isNext
    refine Negates.of_operand isRead ?_
    rintro rfl
    cases starts
  | primary =>
    cases isNext
    obtain ⟨less, rfl⟩ := exists_less enough
    obtain rfl : first = .leftBracket := by simpa [Symbol.startsWith] using starts
    exact (Gives.primary_of_list isRead)
  | element =>
    cases isNext
    exact Gives.element_of_sum isRead starts
  | list => cases isNext
  | _ =>
    cases isNext
    exact RunsTo.of_operand isRead

theorem IsReached.binary {token : Token} {operator : Operator} {left right : List Token}
    {a b : Expr} (joins : Joins symbol token operator) (isNext : symbol.tighter? = some next)
    (reached : IsReached depth left a symbol) (isRead : IsRead depth right b next) :
    IsReached depth (left ++ token :: right) (.compound operator [a, b] none) symbol := by
  cases joins <;> cases isNext <;> exact RunsTo.binary reached rfl rfl isRead

theorem IsRead.readsElement (isRead : IsRead depth tokens e .element)
    (derives : Derives .element tokens e) : ReadsElement (primary depth) tokens e := by
  refine ⟨isRead, ?_⟩
  obtain ⟨first, rest, rfl, starts⟩ := derives.starts
  refine ⟨first, rest, rfl, ?_⟩
  rintro rfl
  cases starts

/-- Every derivation is read, with room for as much nesting as it has tokens. -/
theorem Derives.isReached (derives : Derives symbol tokens e) (enough : tokens.length ≤ depth) :
    IsReached depth tokens e symbol := by
  induction derives generalizing depth with
  | tighter isNext derives ih => exact (ih enough).isRead.tighter isNext derives enough
  | binary joins isNext _ _ leftIh rightIh =>
    simp only [length_append, length_cons] at enough
    exact (leftIh (by omega)).binary joins isNext (rightIh (by omega)).isRead
  | negated _ ih =>
    simp only [length_cons] at enough
    exact Negates.negated (ih (by omega))
  | parenthesized _ ih =>
    obtain ⟨less, rfl⟩ := exists_less enough
    simp only [cons_append, length_append, length_cons] at enough
    exact Gives.parenthesized (ih (by omega)).isRead
  | subscript base derives ih =>
    obtain ⟨less, rfl⟩ := exists_less enough
    simp only [length_cons] at enough
    obtain ⟨first, rest, rfl, starts⟩ := derives.starts
    obtain rfl : first = .leftBracket := by simpa [Symbol.startsWith] using starts
    have inner : IsReached (less + 1) (.leftBracket :: rest) _ .list := ih (by omega)
    exact Gives.subscript base inner
  | single derives ih =>
    simp only [length_append, length_cons] at enough
    exact Gives.single ((ih (by omega)).isRead.readsElement derives)
  | @list items separators fold separated lengths separates tagged derived ih =>
    refine Gives.list (fun item member => ?_) separated lengths separates tagged
    have isElement : item.1 ∈ items.map Prod.fst := mem_map_of_mem member
    have inside := (sublist_joined isElement (by simpa using lengths)).length_le
    simp only [cons_append, length_cons, length_append] at enough
    exact (ih item member (by omega)).isRead.readsElement (derived item member)
  | wildcard | placeholder =>
    exact Accepts.peek (.bind_last .advance fun _ _ => .pure rfl)
  | negative value =>
    obtain ⟨less, rfl⟩ := exists_less enough
    exact Gives.negative value
  | dotted base keyed =>
    obtain ⟨less, rfl⟩ := exists_less enough
    exact Gives.dotted base keyed
  | name name =>
    obtain ⟨less, rfl⟩ := exists_less enough
    exact Gives.name name
  | number | string | on | off | eval =>
    obtain ⟨less, rfl⟩ := exists_less enough
    exact Accepts.query (fun _ => rfl) fun _ _ _ =>
      .peek (.bind_last .advance fun _ _ => .pure rfl)

/-- What is derived as an expression is read, if nothing after it could extend it. -/
theorem Derives.gives (derives : Derives .disjunction tokens e) :
    Gives expression Phrase.expr tokens e Symbol.disjunction.Stops :=
  .query (fun _ => rfl) fun _ _ before => (derives.isReached (Nat.le_of_lt before.length_lt)).isRead

end Derivations

/-! ## Positions -/

/-- A token stream from one of its positions on, up to the end of the input. -/
def streamFrom (tokens : List PlacedToken) (inputEnd : Location) (position : Nat) :
    List PlacedToken :=
  tokens.drop position ++ [⟨.eof, inputEnd⟩]

/-- The tokens from one position up to another. -/
def tokensBetween (tokens : List PlacedToken) (start stop : Nat) : List Token :=
  tokensOf ((tokens.take stop).drop start)

/-- The token is an operator between two operands on some level. -/
def IsBinaryOperator (token : Token) : Prop :=
  ∃ symbol operator, Joins symbol token operator

section Positions

variable {tokens : List PlacedToken} {inputEnd : Location} {start stop : Nat}

theorem endsInput_streamFrom : EndsInput (streamFrom tokens inputEnd start) :=
  ⟨tokens.drop start, inputEnd, rfl⟩

theorem streamFrom_eq_append (ordered : start ≤ stop) :
    streamFrom tokens inputEnd start =
      (tokens.take stop).drop start ++ streamFrom tokens inputEnd stop := by
  have split : tokens.drop start = (tokens.take stop).drop start ++ tokens.drop stop := by
    rw [drop_take]
    have joins := take_append_drop (stop - start) (tokens.drop start)
    rw [drop_drop, Nat.add_sub_cancel' ordered] at joins
    exact joins.symm
  rw [streamFrom, split, append_assoc]
  rfl

theorem exists_stop {taken rest : List PlacedToken}
    (whole : streamFrom tokens inputEnd start = taken ++ rest) (ends : EndsInput rest)
    (inside : start ≤ tokens.length) :
    ∃ stop, start ≤ stop ∧ stop ≤ tokens.length ∧ rest = streamFrom tokens inputEnd stop ∧
      tokensOf taken = tokensBetween tokens start stop := by
  obtain ⟨front, loc, rfl⟩ := ends
  rw [streamFrom, ← append_assoc] at whole
  obtain ⟨sameFront, sameEnd⟩ := append_inj' whole rfl
  have lengths := congrArg List.length sameFront
  simp only [length_drop, length_append] at lengths
  refine ⟨start + taken.length, by omega, by omega, ?_, ?_⟩
  · rw [streamFrom, ← drop_drop, sameFront, drop_left, sameEnd]
  · rw [tokensBetween, drop_take, Nat.add_sub_cancel_left, sameFront, take_left]

theorem unextended_disjunction {token : Token} (notOperator : ¬IsBinaryOperator token)
    (notDot : token ≠ .dot) (notBracket : token ≠ .leftBracket) :
    Symbol.disjunction.Stops token := by
  cases extended : Symbol.disjunction.extendedBy token with
  | false => exact extended
  | true =>
    exfalso
    cases token with
    | dot => exact notDot rfl
    | leftBracket => exact notBracket rfl
    | orWord => exact notOperator ⟨_, _, .or⟩
    | andWord => exact notOperator ⟨_, _, .and⟩
    | eqEq => exact notOperator ⟨_, _, .eq⟩
    | ne => exact notOperator ⟨_, _, .ne⟩
    | lt => exact notOperator ⟨_, _, .lt⟩
    | le => exact notOperator ⟨_, _, .le⟩
    | gt => exact notOperator ⟨_, _, .gt⟩
    | ge => exact notOperator ⟨_, _, .ge⟩
    | plus => exact notOperator ⟨_, _, .add⟩
    | minus => exact notOperator ⟨_, _, .sub⟩
    | star => exact notOperator ⟨_, _, .mul⟩
    | slash => exact notOperator ⟨_, _, .div⟩
    | _ => cases extended

end Positions

/-- An expression is read from a position of a token stream exactly if it is derived from the
tokens that are read.  If an expression is read up to a position, it is derived from the tokens in
between; and if an expression is derived from the tokens up to a position, and the token there is
no binary operator, dot or bracket, it is read and reading stops exactly there. -/
theorem expression_iff_derives
    (tokens : List PlacedToken) (inputEnd : Location) (start : Nat)
    (inside : start ≤ tokens.length) :
    (∀ phrase rest, expression (streamFrom tokens inputEnd start) = .ok phrase rest →
      ∃ stop, start ≤ stop ∧ stop ≤ tokens.length ∧ rest = streamFrom tokens inputEnd stop ∧
        Derives .disjunction (tokensBetween tokens start stop) phrase.expr.unlocated) ∧
      ∀ stop e, start ≤ stop → stop ≤ tokens.length →
        Derives .disjunction (tokensBetween tokens start stop) e →
        ¬IsBinaryOperator (headToken (streamFrom tokens inputEnd stop)) →
        headToken (streamFrom tokens inputEnd stop) ≠ .dot →
        headToken (streamFrom tokens inputEnd stop) ≠ .leftBracket →
        ∃ phrase, expression (streamFrom tokens inputEnd start) =
            .ok phrase (streamFrom tokens inputEnd stop) ∧
          phrase.expr.unlocated = e := by
  constructor
  · intro phrase rest ran
    obtain ⟨taken, whole, ends, derived⟩ :=
      takes_expression _ phrase rest ran rfl rfl endsInput_streamFrom True.intro
    obtain ⟨stop, ordered, bounded, isRest, between⟩ := exists_stop whole ends inside
    rw [between] at derived
    exact ⟨stop, ordered, bounded, isRest, derived⟩
  · intro stop e ordered bounded derives notOperator notDot notBracket
    have stops := unextended_disjunction notOperator notDot notBracket
    obtain ⟨phrase, rest, ran, rfl, _, isPhrase⟩ := derives.gives (streamFrom tokens inputEnd start) _
      ⟨endsInput_streamFrom.ne_nil, stops, _, streamFrom_eq_append ordered, rfl⟩
    exact ⟨phrase, ran, isPhrase⟩

/-- The tokens of `not a == -1 + Sell[b, * or] then`. -/
def negatedComparison : List PlacedToken :=
  [.notWord, .ident "a", .eqEq, .minus, .number (.finite false 1 0), .plus, .ident "Sell",
    .leftBracket, .ident "b", .comma, .star, .orWord, .rightBracket, .thenWord].map (⟨·, default⟩)

theorem expression_iff_derives_negatedComparison :
    ∃ phrase, expression (streamFrom negatedComparison default 0) =
        .ok phrase (streamFrom negatedComparison default 13) ∧
      phrase.expr.unlocated =
        .compound .not [.compound .eq [.ident ⟨"a", none⟩ none,
          .compound .add [.number (.finite true 1 0) none,
            .subscript ⟨"Sell", none⟩
              (.list [.ident ⟨"b", none⟩ none, .wildcard none] (some .or) none) none]
            none] none] none := by
  have name : Derives .product [.ident "a"] (.ident ⟨"a", none⟩ none) :=
    .tighter rfl (.name "a")
  have number : Derives .sum [.minus, .number (.finite false 1 0)]
      (.number (.finite true 1 0) none) :=
    .tighter rfl (.tighter rfl (.negative (.finite false 1 0)))
  have element : Derives .element [.ident "b"] (.ident ⟨"b", none⟩ none) :=
    .tighter rfl (.tighter rfl (.tighter rfl (.name "b")))
  have list : Derives .list [.leftBracket, .ident "b", .comma, .star, .orWord, .rightBracket]
      (.list [.ident ⟨"b", none⟩ none, .wildcard none] (some .or) none) := by
    have tagged : Tagged [.comma, .orWord] (some .or) := by simp [Tagged]
    have items : ∀ item ∈ [([Token.ident "b"], Expr.ident ⟨"b", none⟩ none),
        ([.star], .wildcard none)], Derives .element item.1 item.2 := by
      simpa using ⟨element, .wildcard⟩
    exact .list (by simp) (.inl rfl) (by simp [Separates]) tagged items
  have sum := Derives.binary .add rfl number (.tighter rfl (.subscript "Sell" list))
  have comparison := Derives.binary .eq rfl (.tighter rfl (.tighter rfl name)) sum
  have derived : Derives .disjunction (tokensBetween negatedComparison 0 13) _ :=
    .tighter rfl (.tighter rfl (.negated (.tighter rfl comparison)))
  obtain ⟨_, complete⟩ := expression_iff_derives negatedComparison default 0 (by decide)
  refine complete 13 _ (by decide) (by decide) derived ?_ (by decide) (by decide)
  rintro ⟨_, _, joins⟩
  cases joins

end Grammar

end AutomationScript
