import AutomationScript.Proofs.Grammar.Onward
import AutomationScript.Proofs.Token.Coverage

/-!
# Locations inside of locations

`Stmt.Nest` says that the location of each part lies within that of the whole.  The tokens of a text
stand one after the other (`Tiling.ahead`), and what a reader reads stands between the place where
it starts and the place where it stops (`Leads`), also where it recovers from errors.
-/

namespace AutomationScript

open List AutomationScript.Reader

/-! ## Locations -/

namespace Location

/-- The other location lies within this one. -/
def Holds (outer inner : Location) : Prop :=
  outer.start ≤ inner.start ∧ inner.stop ≤ outer.stop

/-- The location lies between two positions, and it does not stop before it starts. -/
structure Stands (lo hi : Position) (loc : Location) : Prop where
  notBefore : lo ≤ loc.start
  inOrder : loc.start ≤ loc.stop
  notAfter : loc.stop ≤ hi

variable {a b c : Location} {lo lo' hi hi' : Position}

theorem Holds.refl (loc : Location) : loc.Holds loc :=
  ⟨le_rfl, le_rfl⟩

theorem Holds.trans (first : a.Holds b) (second : b.Holds c) : a.Holds c :=
  ⟨first.1.trans second.1, second.2.trans first.2⟩

theorem holds_union_left (a b : Location) : (a.union b).Holds a :=
  ⟨min_le_left a.start b.start, le_max_left a.stop b.stop⟩

theorem holds_union_right (a b : Location) : (a.union b).Holds b :=
  ⟨min_le_right a.start b.start, le_max_right a.stop b.stop⟩

theorem Stands.mono (stands : a.Stands lo hi) (earlier : lo' ≤ lo) (later : hi ≤ hi') :
    a.Stands lo' hi' :=
  ⟨earlier.trans stands.notBefore, stands.inOrder, stands.notAfter.trans later⟩

theorem Stands.holds (stands : a.Stands lo hi) : Holds ⟨lo, hi⟩ a :=
  ⟨stands.notBefore, stands.notAfter⟩

theorem Stands.union (first : a.Stands lo hi) (second : b.Stands lo hi) :
    (a.union b).Stands lo hi :=
  ⟨le_min first.notBefore second.notBefore,
    (min_le_left _ _).trans (first.inOrder.trans (le_max_left _ _)),
    max_le first.notAfter second.notAfter⟩

/-- What stands between two tokens lies in their union. -/
theorem holds_between {opening closing inner : Location} (opens : opening.Stands lo' lo)
    (stands : inner.Stands lo hi) (closes : closing.Stands hi hi') :
    (opening.union closing).Holds inner :=
  ⟨(min_le_left _ _).trans (opens.inOrder.trans (opens.notAfter.trans stands.notBefore)),
    stands.notAfter.trans (closes.notBefore.trans (closes.inOrder.trans (le_max_right _ _)))⟩

end Location

/-! ## Expressions -/

/-- The expression lies within the location, and so do the parts of each of its nodes within that
node. -/
inductive Expr.Within : Location → Expr → Prop
  | string (value : String) {outer loc : Location} (holds : outer.Holds loc) :
      Within outer (.string value (some loc))
  | number (value : Number) {outer loc : Location} (holds : outer.Holds loc) :
      Within outer (.number value (some loc))
  | boolean (value : Bool) {outer loc : Location} (holds : outer.Holds loc) :
      Within outer (.boolean value (some loc))
  | wildcard {outer loc : Location} (holds : outer.Holds loc) :
      Within outer (.wildcard (some loc))
  | placeholder {outer loc : Location} (holds : outer.Holds loc) :
      Within outer (.placeholder (some loc))
  | ident (name : String) {outer loc wordLoc : Location} (holds : outer.Holds loc)
      (word : loc.Holds wordLoc) : Within outer (.ident ⟨name, some wordLoc⟩ (some loc))
  | subscript (name : String) {key : Expr} {outer loc baseLoc : Location} (holds : outer.Holds loc)
      (base : loc.Holds baseLoc) (inKey : Within loc key) :
      Within outer (.subscript ⟨name, some baseLoc⟩ key (some loc))
  | list {values : List Expr} (fold : Option Fold) {outer loc : Location} (holds : outer.Holds loc)
      (each : ∀ value ∈ values, Within loc value) : Within outer (.list values fold (some loc))
  | compound (operator : Operator) {args : List Expr} {outer loc : Location}
      (holds : outer.Holds loc) (each : ∀ arg ∈ args, Within loc arg) :
      Within outer (.compound operator args (some loc))

variable {outer outer' : Location}

theorem Expr.Within.mono {e : Expr} (within : e.Within outer) (holds : outer'.Holds outer) :
    e.Within outer' := by
  cases within with
  | string value inner => exact .string value (holds.trans inner)
  | number value inner => exact .number value (holds.trans inner)
  | boolean value inner => exact .boolean value (holds.trans inner)
  | wildcard inner => exact .wildcard (holds.trans inner)
  | placeholder inner => exact .placeholder (holds.trans inner)
  | ident name inner word => exact .ident name (holds.trans inner) word
  | subscript name inner base key => exact .subscript name (holds.trans inner) base key
  | list fold inner each => exact .list fold (holds.trans inner) each
  | compound operator inner each => exact .compound operator (holds.trans inner) each

/-- The part lies within what stands between the positions. -/
def StandsIn {α : Type} (within : Location → α → Prop) (lo hi : Position) (part : α) : Prop :=
  ∃ loc : Location, loc.Stands lo hi ∧ within loc part

variable {α : Type} {lo lo' hi hi' : Position} {within : Location → α → Prop}

theorem StandsIn.mono {part : α} (stands : StandsIn within lo hi part) (earlier : lo' ≤ lo)
    (later : hi ≤ hi') : StandsIn within lo' hi' part :=
  stands.imp fun _ ⟨placed, inside⟩ => ⟨placed.mono earlier later, inside⟩

theorem StandsIn.between {start stop : Position} {opening closing : Location} {part : α}
    (stands : StandsIn within lo hi part)
    (grows : ∀ {outer outer' part}, within outer part → outer'.Holds outer → within outer' part)
    (opens : opening.Stands start lo) (closes : closing.Stands hi stop) :
    within (opening.union closing) part := by
  obtain ⟨loc, placed, inside⟩ := stands
  exact grows inside (Location.holds_between opens placed closes)

/-- The phrase stands between the positions, and its expression lies within it. -/
structure Phrase.Stands (lo hi : Position) (phrase : Phrase) : Prop where
  placed : phrase.loc.Stands lo hi
  within : phrase.expr.Within phrase.loc

namespace Phrase

variable {lo lo' hi hi' : Position}

theorem Stands.mono {phrase : Phrase} (stands : phrase.Stands lo hi) (earlier : lo' ≤ lo)
    (later : hi ≤ hi') : phrase.Stands lo' hi' :=
  ⟨stands.placed.mono earlier later, stands.within⟩

theorem Stands.binary {left right : Phrase} (operator : Operator) (first : left.Stands lo hi)
    (second : right.Stands lo hi) : (Phrase.binary operator left right).Stands lo hi := by
  refine ⟨first.placed.union second.placed, .compound operator (.refl _) fun arg member => ?_⟩
  rcases mem_cons.mp member with rfl | member
  · exact first.within.mono (Location.holds_union_left _ _)
  · obtain rfl := mem_singleton.mp member
    exact second.within.mono (Location.holds_union_right _ _)

theorem Stands.subscript {name : String} {base : Location} {key : Phrase}
    (first : base.Stands lo hi) (second : key.Stands lo hi) :
    (exact (.subscript ⟨name, some base⟩ key.expr) (base.union key.loc)).Stands lo hi :=
  ⟨first.union second.placed, .subscript name (.refl _) (Location.holds_union_left _ _)
    (second.within.mono (Location.holds_union_right _ _))⟩

end Phrase

/-! ## Statements -/

/-- The argument lies within the location, and its parts lie within it. -/
inductive TriggerArg.Within (outer : Location) : TriggerArg → Prop
  | mk (kind id : String) {count : Option Expr} {loc kindLoc idLoc : Location}
      (holds : outer.Holds loc) (inKind : loc.Holds kindLoc) (inId : loc.Holds idLoc)
      (counted : ∀ e ∈ count, e.Within loc) :
      Within outer ⟨⟨kind, some kindLoc⟩, ⟨id, some idLoc⟩, count, some loc⟩

/-- The statements lie within the location, and the parts of each within the statement.  Definitions
stand at the top only, triggers do something, and blocks are closed.  The block after an `else`
stands at the `else`, while its condition stands where that of the block before it does. -/
inductive Stmt.Nest : (topLevel : Bool) → Location → List Stmt → Prop
  | nil (topLevel : Bool) (outer : Location) : Nest topLevel outer []
  | append {topLevel : Bool} {outer : Location} {front back : List Stmt}
      (first : Nest topLevel outer front) (rest : Nest topLevel outer back) :
      Nest topLevel outer (front ++ back)
  | assign {topLevel : Bool} {outer loc : Location} {target value : Expr} {condition : Option Expr}
      (holds : outer.Holds loc) (inTarget : target.Within loc) (inValue : value.Within loc)
      (conditioned : ∀ e ∈ condition, e.Within loc) :
      Nest topLevel outer [.assign target value condition (.located loc)]
  | trigger {topLevel : Bool} {outer loc : Location} {condition : TriggerArg}
      {actions : List TriggerArg} (holds : outer.Holds loc) (waits : condition.Within loc)
      (some : actions ≠ []) (does : ∀ action ∈ actions, action.Within loc) :
      Nest topLevel outer [.trigger condition actions (.located loc)]
  | use {topLevel : Bool} (name : String) {outer loc nameLoc : Location} (holds : outer.Holds loc)
      (inName : loc.Holds nameLoc) :
      Nest topLevel outer [.use ⟨name, some nameLoc⟩ (.located loc)]
  | defineExpr (name : String) {outer loc nameLoc : Location} {body : Expr}
      (holds : outer.Holds loc) (inName : loc.Holds nameLoc) (inBody : body.Within loc) :
      Nest true outer [.defineExpr ⟨name, some nameLoc⟩ body (.located loc)]
  | defineBlock (name : String) {outer loc nameLoc : Location} {body : List Stmt}
      (holds : outer.Holds loc) (inName : loc.Holds nameLoc) (inBody : Nest false loc body) :
      Nest true outer [.defineBlock ⟨name, some nameLoc⟩ body (.located loc)]
  | block {topLevel : Bool} {outer loc closing : Location} {condition : Expr} {body : List Stmt}
      (holds : outer.Holds loc) (inCondition : condition.Within loc)
      (inBody : Nest false outer body) (closes : outer.Holds closing) :
      Nest topLevel outer
        (.openBlock condition (.located loc) :: body ++ [.closeBlock (.located closing)])
  | blockElse {topLevel : Bool} {outer loc middle closing : Location} {condition : Expr}
      {body other : List Stmt} (holds : outer.Holds loc) (inCondition : condition.Within loc)
      (inBody : Nest false outer body) (turns : outer.Holds middle)
      (inOther : Nest false outer other) (closes : outer.Holds closing) :
      Nest topLevel outer
        (.openBlock condition (.located loc) :: body ++
          (.closeBlock (.located middle) ::
            .openBlock (.compound .not [condition] condition.loc) (.located middle) :: other) ++
          [.closeBlock (.located closing)])

theorem TriggerArg.Within.mono {arg : TriggerArg} (within : arg.Within outer)
    (larger : outer'.Holds outer) : arg.Within outer' := by
  cases within with
  | mk kind id holds inKind inId counted =>
    exact .mk kind id (larger.trans holds) inKind inId counted

theorem Stmt.Nest.mono {topLevel : Bool} {statements : List Stmt}
    (nest : Nest topLevel outer statements) (larger : outer'.Holds outer) :
    Nest topLevel outer' statements := by
  induction nest generalizing outer' with
  | nil topLevel => exact .nil topLevel outer'
  | append _ _ first rest => exact .append (first larger) (rest larger)
  | assign holds inTarget inValue conditioned =>
    exact .assign (larger.trans holds) inTarget inValue conditioned
  | trigger holds waits some does => exact .trigger (larger.trans holds) waits some does
  | use name holds inName => exact .use name (larger.trans holds) inName
  | defineExpr name holds inName inBody =>
    exact .defineExpr name (larger.trans holds) inName inBody
  | defineBlock name holds inName inBody =>
    exact .defineBlock name (larger.trans holds) inName inBody
  | block holds inCondition _ closes inBody =>
    exact .block (larger.trans holds) inCondition (inBody larger) (larger.trans closes)
  | blockElse holds inCondition _ turns _ closes inBody inOther =>
    exact .blockElse (larger.trans holds) inCondition (inBody larger) (larger.trans turns)
      (inOther larger) (larger.trans closes)

theorem Stmt.Nest.widen {topLevel : Bool} {statements : List Stmt}
    (nest : Nest topLevel ⟨lo, hi⟩ statements) (earlier : lo' ≤ lo) (later : hi ≤ hi') :
    Nest topLevel ⟨lo', hi'⟩ statements :=
  nest.mono ⟨earlier, later⟩

/-! ## Streams in order -/

/-- The tokens stand one after the other, none before the position, and the last is the end of the
input. -/
inductive Ahead : Position → List PlacedToken → Prop
  | last {lo place : Position} (notBefore : lo ≤ place) : Ahead lo [⟨.eof, ⟨place, place⟩⟩]
  | cons (t : Token) {lo : Position} {loc : Location} {rest : List PlacedToken}
      (notBefore : lo ≤ loc.start) (inOrder : loc.start ≤ loc.stop)
      (later : Ahead loc.stop rest) : Ahead lo (⟨t, loc⟩ :: rest)

namespace Ahead

variable {lo hi : Position} {xs : List PlacedToken}

theorem mono (ahead : Ahead hi xs) (earlier : lo ≤ hi) : Ahead lo xs := by
  cases ahead with
  | last notBefore => exact .last (earlier.trans notBefore)
  | cons t notBefore inOrder later => exact .cons t (earlier.trans notBefore) inOrder later

theorem next (ahead : Ahead lo xs) :
    (headLoc xs).Stands lo (headLoc xs).stop ∧ Ahead (headLoc xs).stop (after xs) := by
  cases ahead with
  | last notBefore => exact ⟨⟨notBefore, le_rfl, le_rfl⟩, .last le_rfl⟩
  | cons t notBefore inOrder later =>
    refine ⟨⟨notBefore, inOrder, le_rfl⟩, ?_⟩
    cases later with
    | last notBefore => exact .last notBefore
    | cons t notBefore inOrder later => exact .cons t notBefore inOrder later

theorem ends (ahead : Ahead lo xs) : EndsInput xs := by
  induction ahead with
  | last => exact ⟨[], _, rfl⟩
  | cons t _ _ _ ih =>
    obtain ⟨front, loc, rfl⟩ := ih
    exact ⟨_ :: front, loc, rfl⟩

theorem onward {ys : List PlacedToken} (ahead : Ahead lo xs) (onward : Onward xs ys) :
    Ahead lo ys := by
  have isEnd := onward.ends ahead.ends
  have later : ys <:+ xs := onward.later
  clear onward
  induction ahead with
  | last notBefore =>
    rcases suffix_cons_iff.mp later with rfl | later
    · exact .last notBefore
    · exact absurd (suffix_nil.mp later) isEnd.ne_nil
  | cons t notBefore inOrder more ih =>
    rcases suffix_cons_iff.mp later with rfl | later
    · exact .cons t notBefore inOrder more
    · exact (ih later).mono (notBefore.trans inOrder)

end Ahead

/-! ## Computations -/

/-- The computation goes on in order, and a result satisfies `post`, from where it stops on. -/
def Leads {σ α : Type} [Cursor σ] (lo : Position) (post : Position → α → Prop)
    (x : EStateM Diagnostic σ α) (s : σ) : Prop :=
  match x s with
  | .ok value s' => ∃ hi, lo ≤ hi ∧ Ahead hi (Cursor.tokens s') ∧ post hi value
  | .error _ s' => Ahead lo (Cursor.tokens s')

namespace Leads

variable {σ α β : Type} [Cursor σ] {x : EStateM Diagnostic σ α} {lo hi : Position} {s : σ}
  {post : Position → α → Prop} {post' : Position → β → Prop}

theorem pure {value : α} (ahead : Ahead lo (Cursor.tokens s)) (holds : post lo value) :
    Leads lo post (Pure.pure value) s :=
  ⟨lo, le_rfl, ahead, holds⟩

theorem later (leads : Leads hi post x s) (earlier : lo ≤ hi) : Leads lo post x s := by
  unfold Leads at leads ⊢
  split
  next value s' ran =>
    rw [ran] at leads
    obtain ⟨stop, le, further⟩ := leads
    exact ⟨stop, earlier.trans le, further⟩
  next error s' ran =>
    rw [ran] at leads
    exact leads.mono earlier

variable {next : α → EStateM Diagnostic σ β}

theorem bind (first : Leads lo post x s)
    (second : ∀ {hi value s'}, lo ≤ hi → Ahead hi (Cursor.tokens s') → post hi value →
      Leads hi post' (next value) s') : Leads lo post' (x >>= next) s := by
  change Leads lo post' (EStateM.bind x next) s
  unfold Leads at first
  unfold Leads EStateM.bind
  cases ran : x s with
  | ok value s' =>
    rw [ran] at first
    obtain ⟨hi, le, ahead, holds⟩ := first
    exact (second le ahead holds).later le
  | error error s' =>
    rw [ran] at first
    exact first

theorem mono {stronger : Position → α → Prop} (leads : Leads lo stronger x s)
    (weaken : ∀ {hi value}, lo ≤ hi → stronger hi value → post hi value) : Leads lo post x s := by
  unfold Leads at leads ⊢
  split
  next value s' ran =>
    rw [ran] at leads
    obtain ⟨hi, le, ahead, holds⟩ := leads
    exact ⟨hi, le, ahead, weaken le holds⟩
  next error s' ran =>
    rw [ran] at leads
    exact leads

theorem discard (leads : Leads lo post x s) :
    Leads lo (fun hi _ => ∃ value, post hi value) (discard x) s :=
  bind leads fun _ ahead holds => pure ahead ⟨_, holds⟩

/-- A step whose result does not matter. -/
theorem onward [goesOn : GoesOn x] (ahead : Ahead lo (Cursor.tokens s)) :
    Leads lo (fun _ _ => True) x s := by
  have onward := goesOn.onward s
  unfold Leads
  cases ran : x s <;> rw [ran] at onward
  · exact ⟨lo, le_rfl, ahead.onward ⟨onward.later, onward.ends, prefix_refl _⟩, trivial⟩
  · exact ahead.onward ⟨onward.later, onward.ends, prefix_refl _⟩

theorem query {value : α} (asks : x s = .ok value s) (leads : Leads lo post' (next value) s) :
    Leads lo post' (x >>= next) s := by
  change Leads lo post' (EStateM.bind x next) s
  unfold Leads EStateM.bind
  rw [asks]
  exact leads

section Tokens

variable {xs : List PlacedToken}

theorem advance (ahead : Ahead lo xs) :
    Leads lo (fun hi loc => loc = headLoc xs ∧ loc.Stands lo hi) advance xs := by
  obtain ⟨stands, onward⟩ := ahead.next
  exact ⟨_, stands.notBefore.trans stands.inOrder, onward, rfl, stands⟩

theorem expect {wanted : Token} (ahead : Ahead lo xs) :
    Leads lo (fun hi loc => loc.Stands lo hi) (expect wanted) xs := by
  refine .query rfl ?_
  split
  · exact (advance ahead).mono fun _ stands => stands.2
  · exact ahead

theorem expectIdent (ahead : Ahead lo xs) :
    Leads lo (fun hi named => named.2.Stands lo hi) expectIdent xs := by
  refine .query rfl ?_
  split
  · exact (advance ahead).bind fun _ ahead stands => .pure ahead stands.2
  · exact ahead

end Tokens

end Leads

/-- What is read stands between the places of the stream before and after it. -/
def Places {σ α : Type} [Cursor σ] (stands : Position → Position → α → Prop)
    (x : EStateM Diagnostic σ α) : Prop :=
  ∀ ⦃lo s⦄, Ahead lo (Cursor.tokens s) → Leads lo (stands lo) x s

namespace Grammar

section Levels

variable {operand : Reader Phrase} (places : Places Phrase.Stands operand)

include places

variable {lo start : Position} {xs : List PlacedToken}

theorem leads_chain (operator? : Token → Option Operator) (fuel : Nat) {left : Phrase}
    (ahead : Ahead lo xs) (stands : left.Stands start lo) (begins : start ≤ lo) :
    Leads lo (Phrase.Stands start) (chain operand operator? fuel left) xs := by
  induction fuel generalizing lo left xs with
  | zero => exact .pure ahead stands
  | succ fuel ih =>
    refine .query rfl ?_
    split
    · exact .pure ahead stands
    next operator _ =>
      refine (Leads.onward ahead).bind fun past ahead _ => ?_
      refine (places ahead).bind fun further ahead right => ?_
      have onward := past.trans further
      exact ih ahead ((stands.mono le_rfl onward).binary operator
        (right.mono (begins.trans past) le_rfl)) (begins.trans onward)

theorem places_level (operator? : Token → Option Operator) :
    Places Phrase.Stands (level operator? operand) := by
  intro lo xs ahead
  refine (places ahead).bind fun begins ahead left => ?_
  exact leads_chain places operator? _ ahead left begins

theorem places_negations (fuel : Nat) : Places Phrase.Stands (negations operand fuel) := by
  induction fuel with
  | zero => exact places
  | succ fuel ih =>
    intro lo xs ahead
    refine .query rfl ?_
    split
    · refine (Leads.advance ahead).bind fun past ahead start => ?_
      refine (ih ahead).bind fun further ahead inner => .pure ahead ?_
      refine ⟨(start.2.mono le_rfl further).union (inner.placed.mono past le_rfl),
        .compound .not (.refl _) ?_⟩
      exact forall_mem_singleton.mpr (inner.within.mono (Location.holds_union_right _ _))
    · exact places ahead

theorem places_sum : Places Phrase.Stands (sum operand) :=
  places_level (places_level places productOperator?) sumOperator?

theorem places_disjunction : Places Phrase.Stands (disjunction operand) := by
  have negated : Places Phrase.Stands (negation (comparison operand)) := fun _ _ ahead =>
    places_negations (places_level (places_sum places) comparisonOperator?) _ ahead
  exact places_level (places_level negated andOperator?) orOperator?

/-! ## Lists -/

omit places in
theorem places_exact {node : Option Location → Expr}
    (within : ∀ loc, (node (some loc)).Within loc) :
    Places Phrase.Stands (Phrase.exact node <$> advance) := fun _ _ ahead =>
  (Leads.advance ahead).bind fun _ ahead stands => .pure ahead ⟨stands.2, within _⟩

theorem places_element : Places (StandsIn Expr.Within) (element operand) := by
  intro lo xs ahead
  refine .query rfl ?_
  split
  · exact (Leads.advance ahead).bind fun _ ahead stands =>
      .pure ahead ⟨_, stands.2, .wildcard (.refl _)⟩
  · exact (Leads.advance ahead).bind fun _ ahead stands =>
      .pure ahead ⟨_, stands.2, .placeholder (.refl _)⟩
  · exact (places_sum places ahead).bind fun _ ahead phrase =>
      .pure ahead ⟨_, phrase.placed, phrase.within⟩

theorem leads_elements (fuel : Nat) {body : ListBody} (ahead : Ahead lo xs) (begins : start ≤ lo)
    (each : ∀ value ∈ body.values, StandsIn Expr.Within start lo value) :
    Leads lo (fun hi body => ∀ value ∈ body.values, StandsIn Expr.Within start hi value)
      (elements operand fuel body) xs := by
  induction fuel generalizing lo body xs with
  | zero => exact .pure ahead each
  | succ fuel ih =>
    refine (places_element places ahead).bind fun past ahead stands => ?_
    replace each := forall_mem_append.mpr
      ⟨fun value member => (each value member).mono le_rfl past,
        forall_mem_singleton.mpr (stands.mono begins le_rfl)⟩
    refine .query rfl ?_
    split
    · exact .pure ahead each
    · refine (Leads.onward ahead).bind fun further ahead _ => ?_
      replace each := fun value member => (each value member).mono le_rfl further
      split
      · exact ahead
      · refine .query rfl ?_
        split
        · exact .pure ahead each
        · exact ih ahead (begins.trans (past.trans further)) each

theorem places_bracketed : Places Phrase.Stands (bracketed operand) := by
  intro lo xs ahead
  refine (Leads.expect ahead).bind fun past ahead opening => .query rfl ?_
  dsimp only
  split
  · exact ahead
  refine .query rfl ?_
  refine (leads_elements places _ ahead le_rfl (forall_mem_nil _)).bind
    fun further ahead each => ?_
  refine (Leads.expect ahead).bind fun last ahead closing => ?_
  have stands := (opening.mono le_rfl (further.trans last)).union
    (closing.mono (past.trans further) le_rfl)
  have inside := fun value member => (each value member).between Expr.Within.mono opening closing
  split
  next single _ isSingle =>
    rw [isSingle] at inside
    exact .pure ahead ⟨stands, inside _ mem_cons_self⟩
  · exact .pure ahead ⟨stands, .list _ (.refl _) inside⟩

omit places in
theorem places_dottedKey : Places Phrase.Stands dottedKey := by
  intro lo xs ahead
  refine .query rfl (.query rfl ?_)
  split
  · exact places_exact (fun _ => .wildcard (.refl _)) ahead
  · exact places_exact (fun _ => .placeholder (.refl _)) ahead
  · refine (Leads.advance ahead).bind fun _ ahead stands => .pure ahead ⟨stands.2, ?_⟩
    rw [stands.1]
    exact .ident _ (.refl _) (.refl _)
  · exact ahead

theorem places_reference : Places Phrase.Stands (reference operand) := by
  intro lo xs ahead
  refine (Leads.expectIdent ahead).bind fun past ahead base => ?_
  refine .query rfl ?_
  split
  · refine (Leads.onward ahead).bind fun further ahead _ => ?_
    refine (places_dottedKey ahead).bind fun last ahead key => .pure ahead ?_
    exact .subscript (base.mono le_rfl (further.trans last)) (key.mono (past.trans further) le_rfl)
  · refine (places_bracketed places ahead).bind fun further ahead key => .pure ahead ?_
    exact .subscript (base.mono le_rfl further) (key.mono past le_rfl)
  · exact .pure ahead ⟨base, .ident _ (.refl _) (.refl _)⟩

end Levels

theorem places_primary (depth : Nat) : Places Phrase.Stands (primary depth) := by
  induction depth with
  | zero => exact fun _ _ ahead => ahead
  | succ depth ih =>
    intro lo xs ahead
    refine .query rfl (.query rfl ?_)
    split
    · exact places_exact (fun _ => .number _ (.refl _)) ahead
    · refine .query rfl ?_
      split
      · refine (Leads.advance ahead).discard.bind fun past ahead signed => ?_
        refine (Leads.advance ahead).bind fun further ahead digits => .pure ahead ?_
        obtain ⟨_, rfl, sign⟩ := signed
        exact ⟨(sign.mono le_rfl further).union (digits.2.mono past le_rfl), .number _ (.refl _)⟩
      · exact ahead
    · exact places_exact (fun _ => .string _ (.refl _)) ahead
    · exact places_exact (fun _ => .boolean _ (.refl _)) ahead
    · exact places_exact (fun _ => .boolean _ (.refl _)) ahead
    · refine (Leads.advance ahead).bind fun _ ahead stands => .pure ahead ⟨stands.2, ?_⟩
      exact .subscript _ (.refl _) (.refl _) (.ident _ (.refl _) (.refl _))
    · refine (Leads.advance ahead).discard.bind fun past ahead opened => ?_
      refine (places_disjunction ih ahead).bind fun further ahead inner => ?_
      refine (Leads.expect ahead).bind fun last ahead closing => .pure ahead ?_
      obtain ⟨_, rfl, opening⟩ := opened
      refine ⟨(opening.mono le_rfl (further.trans last)).union
        (closing.mono (past.trans further) le_rfl), ?_⟩
      exact StandsIn.between ⟨_, inner.placed, inner.within⟩ Expr.Within.mono opening closing
    · exact places_bracketed ih ahead
    · exact places_reference ih ahead
    · exact ahead

theorem places_expression : Places Phrase.Stands expression := fun _ xs ahead =>
  .query rfl (places_disjunction (places_primary xs.length) ahead)

theorem places_target : Places Phrase.Stands target := fun _ xs ahead =>
  .query rfl (places_reference (places_primary xs.length) ahead)

/-! ## Statements without blocks -/

theorem leads_onlyIf {xs : List PlacedToken} (ahead : Ahead lo xs) :
    Leads lo (fun hi condition? => ∀ condition ∈ condition?, Phrase.Stands lo hi condition)
      conditionPart xs := by
  refine .query rfl ?_
  split
  · refine (Leads.onward ahead).bind fun first ahead _ => ?_
    refine (places_expression ahead).bind fun second ahead condition => .pure ahead ?_
    exact fun _ isCondition => by cases isCondition; exact condition.mono first le_rfl
  · exact .pure ahead fun _ impossible => by cases impossible

theorem places_assignment (topLevel : Bool) :
    Places (fun lo hi s => Stmt.Nest topLevel ⟨lo, hi⟩ [s]) assignment := by
  intro lo xs ahead
  refine (places_target ahead).bind fun first ahead target => ?_
  refine (Leads.onward ahead).bind fun second ahead _ => ?_
  refine (places_expression ahead).bind fun third ahead value => ?_
  have begins := first.trans second
  have stands := (target.placed.mono le_rfl (second.trans third)).union
    (value.placed.mono begins le_rfl)
  have inTarget := fun right => target.within.mono (Location.holds_union_left _ right)
  have inValue := fun left => value.within.mono (Location.holds_union_right left _)
  refine (leads_onlyIf ahead).bind fun fourth ahead conditioned => ?_
  refine (Leads.onward ahead).bind fun last ahead _ => ?_
  split
  · have condition := conditioned _ rfl
    have wider := (stands.mono le_rfl fourth).union
      (condition.placed.mono (begins.trans third) le_rfl)
    have inLeft := Location.holds_union_left
    refine .pure ahead (.assign (wider.mono le_rfl last).holds ((inTarget _).mono (inLeft _ _))
      ((inValue _).mono (inLeft _ _)) fun e isCondition => ?_)
    cases isCondition
    exact condition.within.mono (Location.holds_union_right _ _)
  · refine .pure ahead (.assign (stands.mono le_rfl (fourth.trans last)).holds (inTarget _)
      (inValue _) fun e impossible => ?_)
    cases impossible

theorem places_triggerArgument :
    Places (fun lo hi arg => arg.2.Stands lo hi ∧ arg.1.Within arg.2) triggerArgument := by
  intro lo xs ahead
  refine (Leads.expectIdent ahead).bind fun first ahead kind => ?_
  refine (Leads.expectIdent ahead).bind fun second ahead word => .query rfl ?_
  have stands := (kind.mono le_rfl second).union (word.mono first le_rfl)
  have inKind := Location.holds_union_left
  have inWord := Location.holds_union_right
  split
  · refine (Leads.onward ahead).bind fun third ahead _ => .query rfl ?_
    split
    · refine (Leads.advance ahead).bind fun fourth ahead count => ?_
      refine (Leads.expect ahead).bind fun last ahead closing => .pure ahead ?_
      have begins := (first.trans second).trans (third.trans fourth)
      refine ⟨(stands.mono le_rfl ((third.trans fourth).trans last)).union
        (closing.mono begins le_rfl), .mk _ _ (.refl _) ((inKind _ _).trans (inKind _ _))
          ((inKind _ _).trans (inWord _ _)) fun e isCount => ?_⟩
      cases isCount
      exact .number _ (Location.holds_between (stands.mono le_rfl third) count.2 closing)
    · exact ahead
  · refine .pure ahead ⟨stands, .mk _ _ (.refl _) (inKind _ _) (inWord _ _) ?_⟩
    exact fun _ impossible => by cases impossible

theorem places_inlineTrigger (topLevel : Bool) :
    Places (fun lo hi s => Stmt.Nest topLevel ⟨lo, hi⟩ [s]) inlineTrigger := by
  intro lo xs ahead
  refine (places_triggerArgument ahead).bind fun first ahead action => ?_
  refine (Leads.onward ahead).bind fun second ahead _ => ?_
  refine (places_triggerArgument ahead).bind fun third ahead condition => ?_
  refine (Leads.onward ahead).bind fun last ahead _ => .pure ahead ?_
  have stands := (action.1.mono le_rfl (second.trans third)).union
    (condition.1.mono (first.trans second) le_rfl)
  refine .trigger (stands.mono le_rfl last).holds
    (condition.2.mono (Location.holds_union_right _ _)) (cons_ne_nil _ _) ?_
  exact forall_mem_singleton.mpr (action.2.mono (Location.holds_union_left _ _))

theorem places_useStatement (topLevel : Bool) :
    Places (fun lo hi s => Stmt.Nest topLevel ⟨lo, hi⟩ [s]) useStatement := by
  intro lo xs ahead
  refine (Leads.advance ahead).bind fun first ahead start => ?_
  refine (Leads.expectIdent ahead).bind fun second ahead name => ?_
  refine (Leads.onward ahead).bind fun last ahead _ => .pure ahead ?_
  have stands := (start.2.mono le_rfl second).union (name.mono first le_rfl)
  exact .use _ (stands.mono le_rfl last).holds (Location.holds_union_right _ _)

/-! ## Sessions -/

section Sessions

open AutomationScript.Parser

variable {α : Type} {lo : Position} {post : Position → α → Prop} {session : Session}

theorem leads_lift {x : Reader α} (leads : Leads lo post x session.tokens) :
    Leads lo post (liftReader x) session := by
  unfold Leads at leads
  unfold Leads liftReader
  cases ran : x session.tokens <;> rw [ran] at leads <;> exact leads

theorem leads_attempt {x : Parser α} (leads : Leads lo post x session) :
    Leads lo (fun hi tried => ∀ value, tried = .ok value → post hi value) (attempt x) session := by
  unfold Leads at leads
  unfold Leads attempt
  cases ran : x session with
  | ok value session' =>
    rw [ran] at leads
    obtain ⟨hi, le, ahead, holds⟩ := leads
    exact ⟨hi, le, ahead, fun _ same => by cases same; exact holds⟩
  | error error session' =>
    rw [ran] at leads
    exact ⟨lo, le_rfl, leads, fun _ impossible => by cases impossible⟩

variable {stands : Position → Position → List α → Prop} (none : ∀ lo hi, stands lo hi [])

include none

theorem places_orRecover {closers : List Token} {x : Parser (List α)} (places : Places stands x) :
    Places stands (orRecover x closers) := by
  intro lo session ahead
  refine (leads_attempt (places ahead)).bind fun _ ahead tried => ?_
  split
  · exact .pure ahead (tried _ rfl)
  · refine (Leads.onward ahead).bind fun _ ahead _ => ?_
    exact (Leads.onward ahead).bind fun _ ahead _ => .pure ahead (none _ _)

theorem places_gather {closes : Token → Bool} {item more : Parser (List α)}
    (append : ∀ {start lo middle hi front back}, start ≤ lo → lo ≤ middle → middle ≤ hi →
      stands lo middle front → stands middle hi back → stands start hi (front ++ back))
    (placesItem : Places stands item) (placesMore : Places stands more) :
    Places stands (gather closes item more) := by
  intro lo session ahead
  refine (Leads.onward ahead).bind fun first ahead _ => .query rfl ?_
  split
  · exact .pure ahead (none _ _)
  · refine (placesItem ahead).bind fun second ahead front => ?_
    exact (placesMore ahead).bind fun third ahead back =>
      .pure ahead (append first second third front back)

end Sessions

/-! ## Blocks -/

section Blocks

/-- What is read of statements stands between the positions. -/
abbrev Nests (topLevel : Bool) (lo hi : Position) (statements : List Stmt) : Prop :=
  Stmt.Nest topLevel ⟨lo, hi⟩ statements

theorem Nests.append {topLevel : Bool} {start middle : Position} {front back : List Stmt}
    (first : start ≤ lo) (second : lo ≤ middle) (third : middle ≤ hi)
    (inFront : Nests topLevel lo middle front) (inBack : Nests topLevel middle hi back) :
    Nests topLevel start hi (front ++ back) :=
  Stmt.Nest.append (inFront.widen first third) (inBack.widen (first.trans second) le_rfl)

variable {body : Parser (List Stmt)} (places : Places (Nests false) body)

include places

theorem places_brokenBlock (topLevel : Bool) : Places (Nests topLevel) (brokenBlock body) := by
  intro lo session ahead
  have ends : ∀ {lo'} {session : Session}, Ahead lo' session.tokens →
      Leads lo' (Nests topLevel lo) brokenEnd session := fun ahead =>
    (Leads.onward ahead).bind fun _ ahead _ =>
      (Leads.onward ahead).bind fun _ ahead _ => .pure ahead (.nil _ _)
  refine (places ahead).discard.bind fun _ ahead _ => .query rfl ?_
  dsimp only
  split
  · refine (Leads.onward ahead).bind fun _ ahead _ => ?_
    exact (places ahead).discard.bind fun _ ahead _ => ends ahead
  · exact ends ahead

/-- The part after `else`, or nothing. -/
inductive Otherwise (condition : Expr) (lo hi : Position) : List Stmt → Prop
  | none : Otherwise condition lo hi []
  | some {middle : Location} {other : List Stmt} (turns : middle.Stands lo hi)
      (inOther : Nests false lo hi other) :
      Otherwise condition lo hi (.closeBlock (.located middle) ::
        .openBlock (.compound .not [condition] condition.loc) (.located middle) :: other)

theorem places_elsePart (condition : Expr) :
    Places (Otherwise condition) (elsePart body condition) := by
  intro lo session ahead
  refine .query rfl ?_
  split
  · refine (leads_lift (Leads.advance ahead)).bind fun first ahead middle => ?_
    refine (places ahead).bind fun second ahead other => .pure ahead ?_
    exact .some (middle.2.mono le_rfl second) (other.widen first le_rfl)
  · exact .pure ahead .none

theorem places_conditionBlock (topLevel : Bool) :
    Places (Nests topLevel) (conditionBlock body) := by
  intro lo session ahead
  refine (leads_lift (Leads.advance ahead)).bind fun first ahead started => ?_
  have start := started.2
  have head : Places Phrase.Stands conditionHead := fun _ _ ahead =>
    (places_expression ahead).bind fun first ahead condition =>
      (Leads.onward ahead).bind fun second ahead _ =>
        .pure ahead (condition.mono le_rfl second)
  refine (leads_attempt (leads_lift (head ahead))).bind fun second ahead tried => ?_
  split
  · refine (Leads.onward ahead).bind fun third ahead _ => ?_
    refine (Leads.onward ahead).bind fun fourth ahead _ => ?_
    refine (places_brokenBlock places topLevel ahead).mono fun _ nest => nest.widen ?_ le_rfl
    exact (first.trans second).trans (third.trans fourth)
  · have condition := tried _ rfl
    refine (places ahead).bind fun third ahead inBody => ?_
    refine (places_elsePart places _ ahead).bind fun fourth ahead otherwise => ?_
    refine (leads_lift (Leads.expect ahead)).bind fun fifth ahead closing => ?_
    refine (Leads.onward ahead).bind fun last ahead _ => .pure ahead ?_
    have stands := (start.mono le_rfl second).union (condition.placed.mono first le_rfl)
    have begins := first.trans second
    have ends := fifth.trans last
    have holds := (stands.mono le_rfl ((third.trans fourth).trans ends)).holds
    have inCondition := fun left => condition.within.mono (Location.holds_union_right left _)
    have nest := inBody.widen begins (fourth.trans ends)
    have closes := (closing.mono (begins.trans (third.trans fourth)) last).holds
    cases otherwise with
    | none =>
      rw [append_nil]
      exact .block holds (inCondition _) nest closes
    | some turns inOther =>
      exact .blockElse holds (inCondition _) nest (turns.mono (begins.trans third) ends).holds
        (inOther.widen (begins.trans third) ends) closes

theorem places_definition : Places (fun lo hi s => Nests true lo hi [s]) (definition body) := by
  intro lo session ahead
  refine (leads_lift (Leads.advance ahead)).bind fun first ahead started => ?_
  have start := started.2
  refine (leads_lift (Leads.expectIdent ahead)).bind fun second ahead name => .query rfl ?_
  split
  · refine (Leads.onward ahead).bind fun third ahead _ => ?_
    refine (leads_lift (places_expression ahead)).bind fun fourth ahead value => ?_
    refine (Leads.onward ahead).bind fun last ahead _ => .pure ahead ?_
    have begins := (first.trans second).trans third
    refine .defineExpr _ (((start.mono le_rfl ((second.trans third).trans fourth)).union
      (value.placed.mono begins le_rfl)).mono le_rfl last).holds ?_
      (value.within.mono (Location.holds_union_right _ _))
    exact Location.holds_between start (name.mono le_rfl third) value.placed
  · refine (Leads.onward ahead).bind fun third ahead _ => ?_
    refine (places ahead).bind fun fourth ahead inBody => ?_
    refine (leads_lift (Leads.expect ahead)).bind fun fifth ahead closing => ?_
    refine (Leads.onward ahead).bind fun last ahead _ => .pure ahead ?_
    have opens := start.mono le_rfl (second.trans third)
    have begins := (first.trans second).trans (third.trans fourth)
    refine .defineBlock _ (((opens.mono le_rfl (fourth.trans fifth)).union
      (closing.mono begins le_rfl)).mono le_rfl last).holds ?_ (inBody.mono ?_)
    · exact Location.holds_between start (name.mono le_rfl (third.trans fourth)) closing
    · exact Location.holds_between opens ⟨le_rfl, fourth, le_rfl⟩ closing
  · exact ahead

omit places in
theorem places_triggerActions (fuel : Nat) :
    Places (fun lo hi actions => ∀ action ∈ actions, StandsIn TriggerArg.Within lo hi action)
      (triggerActions fuel) := by
  induction fuel with
  | zero => exact fun _ _ ahead => .pure ahead (forall_mem_nil _)
  | succ fuel ih =>
    rw [triggerActions_succ]
    refine places_gather (fun _ _ => forall_mem_nil _) ?_ (places_orRecover
      (fun _ _ => forall_mem_nil _) fun _ _ ahead => leads_lift ?_) ih
    · intro start lo middle hi front back first second third inFront inBack
      refine forall_mem_append.mpr ⟨fun action member => ?_, fun action member => ?_⟩
      · exact (inFront action member).mono first third
      · exact (inBack action member).mono (first.trans second) le_rfl
    · exact (places_triggerArgument ahead).bind fun _ ahead action =>
        (Leads.onward ahead).bind fun last ahead _ => .pure ahead
          (forall_mem_singleton.mpr ⟨_, action.1.mono le_rfl last, action.2⟩)

omit places in
theorem places_triggerBlock (topLevel : Bool) : Places (Nests topLevel) triggerBlock := by
  intro lo session ahead
  have head : Places (fun lo hi found => StandsIn TriggerArg.Within lo hi found.1)
      triggerHead := fun _ _ ahead =>
    (places_triggerArgument ahead).bind fun first ahead condition =>
      (Leads.expect ahead).bind fun second ahead _ =>
        .pure ahead ⟨_, condition.1.mono le_rfl second, condition.2⟩
  refine .query rfl ?_
  refine (leads_lift (Leads.advance ahead)).bind fun first ahead started => ?_
  have start := started.2
  refine (leads_attempt (leads_lift (head ahead))).bind fun second ahead tried => ?_
  dsimp only
  split
  · refine (Leads.onward ahead).bind fun _ ahead _ => ?_
    refine (Leads.onward ahead).bind fun _ ahead _ => .query rfl ?_
    refine (places_triggerActions _ ahead).bind fun _ ahead _ => ?_
    refine (leads_lift (Leads.expect ahead)).bind fun _ ahead _ => ?_
    exact (Leads.onward ahead).bind fun _ ahead _ => .pure ahead (.nil _ _)
  · have condition := tried _ rfl
    refine .query rfl ?_
    refine (places_triggerActions _ ahead).bind fun third ahead actions => ?_
    refine (leads_lift (Leads.expect ahead)).bind fun fourth ahead closing => .query rfl ?_
    split
    · exact (Leads.onward ahead).bind fun _ ahead _ => .pure ahead (.nil _ _)
    · split
      · exact ahead
      next some =>
        refine (Leads.onward ahead).bind fun last ahead _ => .pure ahead ?_
        have stands := (start.mono le_rfl ((second.trans third).trans fourth)).union
          (closing.mono (first.trans (second.trans third)) le_rfl)
        have between := fun action (stands : StandsIn TriggerArg.Within _ _ action) =>
          stands.between TriggerArg.Within.mono start closing
        refine .trigger (stands.mono le_rfl last).holds (between _ (condition.mono le_rfl third))
          (fun none => some (List.isEmpty_iff.mpr none)) fun action member => ?_
        exact between action ((actions action member).mono second le_rfl)

theorem places_statement (topLevel : Bool) : Places (Nests topLevel) (statement body topLevel) := by
  intro lo session ahead
  refine .query rfl ?_
  split
  · exact places_conditionBlock places topLevel ahead
  · exact places_triggerBlock topLevel ahead
  · refine .query rfl ?_
    refine (places_definition places ahead).bind fun _ ahead nest => ?_
    split
    next isTop =>
      subst isTop
      exact .pure ahead nest
    · exact ahead
  · exact (leads_lift (places_useStatement topLevel ahead)).bind fun _ ahead nest =>
      .pure ahead nest
  · refine .query rfl ?_
    split
    · exact (leads_lift (places_inlineTrigger topLevel ahead)).bind fun _ ahead nest =>
      .pure ahead nest
    · exact (leads_lift (places_assignment topLevel ahead)).bind fun _ ahead nest =>
      .pure ahead nest
  · exact ahead

end Blocks

theorem places_blockBody (fuel : Nat) : Places (Nests false) (blockBody fuel) := by
  induction fuel with
  | zero => exact fun _ _ ahead => .pure ahead (.nil _ _)
  | succ fuel ih =>
    rw [blockBody_succ]
    exact places_gather (fun _ _ => .nil _ _) Nests.append
      (places_orRecover (fun _ _ => .nil _ _) (places_statement ih false)) ih

theorem places_programBody {block : Parser (List Stmt)} (places : Places (Nests false) block)
    (fuel : Nat) : Places (Nests true) (programBody block fuel) := by
  induction fuel with
  | zero => exact fun _ _ ahead => .pure ahead (.nil _ _)
  | succ fuel ih =>
    rw [programBody_succ]
    exact places_gather (fun _ _ => .nil _ _) Nests.append
      (places_orRecover (fun _ _ => .nil _ _) (places_statement places true)) ih

end Grammar

theorem exists_nest_parseTokens {tokens : List PlacedToken} (ahead : Ahead lo tokens) :
    ∃ hi, Stmt.Nest true ⟨lo, hi⟩ (parseTokens tokens).1 := by
  have leads : Leads lo (Grammar.Nests true lo) Grammar.program ⟨tokens, []⟩ :=
    .query rfl (Grammar.places_programBody (Grammar.places_blockBody _) _ ahead)
  unfold Leads at leads
  unfold parseTokens
  cases ran : Grammar.program ⟨tokens, []⟩ with
  | ok statements session =>
    rw [ran] at leads
    obtain ⟨hi, -, -, nest⟩ := leads
    exact ⟨hi, nest⟩
  | error error session => exact ⟨lo, .nil _ _⟩

/-- The tokens of a text stand in order, from where their tiling starts. -/
theorem Tiling.ahead {start : Nat} {chars : List Char} {lexemes : List Lexeme}
    (tiling : Tiling start chars lexemes) (before : List Char) (isStart : start = byteSize before) :
    Ahead (positionAfter before) (placeTokens (LineTable.ofChars (before ++ chars)) lexemes) := by
  induction tiling generalizing before with
  | @eof start gap _ =>
    have stops := LineTable.position_byteSize (before ++ gap) []
    rw [append_nil, byteSize_append, ← isStart] at stops
    simp only [placeTokens, map_cons, map_nil, LineTable.location, stops]
    exact .last (positionAfter_le_append before gap)
  | @token start gap taken rest t lexemes _ _ _ _ _ ih =>
    have later := ih (before ++ gap ++ taken) (by simp only [byteSize_append, isStart])
    simp only [append_assoc, isStart] at later ⊢
    have starts := LineTable.position_byteSize (before ++ gap) (taken ++ rest)
    have stops := LineTable.position_byteSize (before ++ (gap ++ taken)) rest
    simp only [byteSize_append, append_assoc, ← Nat.add_assoc] at starts stops
    have begins := positionAfter_le_append before gap
    have inOrder := positionAfter_le_append (before ++ gap) taken
    rw [append_assoc, ← stops] at inOrder
    rw [← starts] at begins inOrder
    rw [← stops] at later
    exact .cons t begins inOrder later

/-- The statements of every text lie one in the other, from the start of the text on: each part of
a node is located within the node, but for the condition of the block after an `else`. -/
theorem nest_parse (source : String) :
    ∃ stop, Stmt.Nest true ⟨⟨1, 1⟩, stop⟩ (parse source).1 := by
  unfold parse
  cases read : tokenize source with
  | error errors => exact ⟨⟨1, 1⟩, .nil _ _⟩
  | ok lexemes =>
    have ahead := (layout_tokenize read).tiling.ahead [] rfl
    exact exists_nest_parseTokens ahead

end AutomationScript
