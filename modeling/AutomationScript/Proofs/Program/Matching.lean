import AutomationScript.Program.Names
import AutomationScript.Program.Stmt
import Mathlib.Data.List.Forall2

/-!
# Programs that match

Two programs match if they say the same, part by part, and their locations differ as far as a
`Slack` allows.  A lenient slack also allows text for the runtime in the second program where the
first one has another expression: as a whole value or condition, or as an operand.
-/

namespace AutomationScript

open List

/-- What two matching programs need not have in common. -/
structure Slack where
  /-- The places that a part can have in the one program and in the other. -/
  places : Option Location → Option Location → Prop
  /-- Text for the runtime can stand for an expression. -/
  lenient : Prop
  union : ∀ {a b a' b' : Option Location}, places a a' → places b b' →
    places (Location.unionAll [a, b]) (Location.unionAll [a', b'])
  anywhere : lenient → ∀ a b, places a b

/-! ## Expressions -/

def Ident.Matches (slack : Slack) (word word' : Ident) : Prop :=
  word'.name = word.name ∧ slack.places word.loc word'.loc

namespace Expr

/-- Text for the runtime, written in braces or lowered, or the negation of such text. -/
inductive IsText : Expr → Prop
  | written {base text : Ident} {textLoc loc : Option Location} (named : base.name = evalName) :
      IsText (.subscript base (.ident text textLoc) loc)
  | lowered (text : String) (loc : Option Location) : IsText (.eval text loc)
  | negated {e : Expr} (loc : Option Location) (isText : IsText e) :
      IsText (.compound .not [e] loc)

/-- Two expressions without parts are the same but for places, and for text if that is granted. -/
inductive AtomsMatch (slack : Slack) : Expr → Expr → Prop
  | string (value : String) {loc loc' : Option Location} (placed : slack.places loc loc') :
      AtomsMatch slack (.string value loc) (.string value loc')
  | number (value : Number) {loc loc' : Option Location} (placed : slack.places loc loc') :
      AtomsMatch slack (.number value loc) (.number value loc')
  | boolean (value : Bool) {loc loc' : Option Location} (placed : slack.places loc loc') :
      AtomsMatch slack (.boolean value loc) (.boolean value loc')
  | ident {word word' : Ident} {loc loc' : Option Location} (words : word.Matches slack word')
      (placed : slack.places loc loc') : AtomsMatch slack (.ident word loc) (.ident word' loc')
  | eval {text text' : String} {loc loc' : Option Location} (texts : slack.lenient ∨ text' = text)
      (placed : slack.places loc loc') : AtomsMatch slack (.eval text loc) (.eval text' loc')
  | wildcard {loc loc' : Option Location} (placed : slack.places loc loc') :
      AtomsMatch slack (.wildcard loc) (.wildcard loc')
  | placeholder {loc loc' : Option Location} (placed : slack.places loc loc') :
      AtomsMatch slack (.placeholder loc) (.placeholder loc')

/-- The second expression is the first one, but for places and for operands that are swapped.  The
flags say whether it is rigid, that is, nothing in it is swapped, as in the key of a subscript, and
whether it is an operand itself. -/
inductive Matches (slack : Slack) (swap : Expr → Expr → Prop) :
    (rigid operand : Bool) → Expr → Expr → Prop
  | swapped {e e' : Expr} (lenient : slack.lenient) (swaps : swap e e') :
      Matches slack swap false true e e'
  | atom {rigid operand : Bool} {e e' : Expr} (atoms : AtomsMatch slack e e') :
      Matches slack swap rigid operand e e'
  | subscript {rigid operand : Bool} {base base' : Ident} {key key' : Expr}
      {loc loc' : Option Location} (bases : base.Matches slack base')
      (keys : Matches slack swap true false key key') (placed : slack.places loc loc') :
      Matches slack swap rigid operand (.subscript base key loc) (.subscript base' key' loc')
  | list {rigid operand : Bool} {values values' : List Expr} (fold : Option Fold)
      {loc loc' : Option Location} (length : values.length = values'.length)
      (parts : ∀ {value value' : Expr}, (value, value') ∈ values.zip values' →
        Matches slack swap rigid false value value')
      (placed : slack.places loc loc') :
      Matches slack swap rigid operand (.list values fold loc) (.list values' fold loc')
  | compound {rigid operand : Bool} (operator : Operator) {args args' : List Expr}
      {loc loc' : Option Location} (length : args.length = args'.length)
      (parts : ∀ {arg arg' : Expr}, (arg, arg') ∈ args.zip args' →
        Matches slack swap rigid (!rigid) arg arg')
      (placed : slack.places loc loc') :
      Matches slack swap rigid operand (.compound operator args loc) (.compound operator args' loc')

namespace Matches

variable {slack : Slack} {swap swap' : Expr → Expr → Prop} {rigid operand : Bool} {e e' : Expr}

theorem loc (matched : Matches slack swap rigid operand e e') : slack.places e.loc e'.loc := by
  cases matched with
  | swapped lenient _ => exact slack.anywhere lenient _ _
  | atom atoms => cases atoms <;> assumption
  | _ => assumption

theorem asOperand (matched : Matches slack swap rigid false e e') :
    Matches slack swap rigid operand e e' := by
  cases matched with
  | atom atoms => exact .atom atoms
  | subscript bases keys placed => exact .subscript bases keys placed
  | list fold length parts placed => exact .list fold length parts placed
  | compound operator length parts placed => exact .compound operator length parts placed

/-- More may be swapped, if anything is: nothing in what is rigid, and nothing without leniency. -/
theorem mono (matched : Matches slack swap rigid operand e e')
    (weaker : slack.lenient → rigid = false → ∀ {e e'}, swap e e' → swap' e e') :
    Matches slack swap' rigid operand e e' := by
  induction matched with
  | swapped lenient swaps => exact .swapped lenient (weaker lenient rfl swaps)
  | atom atoms => exact .atom atoms
  | subscript bases keys placed ih => exact .subscript bases (ih fun _ => (Bool.noConfusion ·)) placed
  | list fold length parts placed ih => exact .list fold length (fun part => ih part weaker) placed
  | compound operator length parts placed ih =>
    exact .compound operator length (fun part => ih part weaker) placed

variable {loc loc' : Option Location}

theorem ofList {values values' : List Expr} {fold : Option Fold}
    (parts : Forall₂ (Matches slack swap rigid false) values values')
    (placed : slack.places loc loc') :
    Matches slack swap rigid operand (.list values fold loc) (.list values' fold loc') :=
  .list fold parts.length_eq (forall₂_zip parts) placed

theorem ofCompound {operator : Operator} {args args' : List Expr}
    (parts : Forall₂ (Matches slack swap rigid (!rigid)) args args')
    (placed : slack.places loc loc') :
    Matches slack swap rigid operand (.compound operator args loc) (.compound operator args' loc') :=
  .compound operator parts.length_eq (forall₂_zip parts) placed

theorem name? (matched : Matches slack swap rigid false e e') : e'.name? = e.name? := by
  cases matched with
  | atom atoms =>
    cases atoms with
    | ident words placed => exact congrArg some words.1
    | _ => rfl
  | _ => rfl

theorem isList (matched : Matches slack swap rigid false e e') : e'.isList = e.isList := by
  cases matched with
  | atom atoms => cases atoms <;> rfl
  | _ => rfl

end Matches

/-- The second expression is the first one but for places. -/
abbrev Same (slack : Slack) : Expr → Expr → Prop :=
  Matches slack (fun _ _ => False) true false

variable {slack : Slack} {swap : Expr → Expr → Prop} {e e' : Expr}

theorem Same.matches (same : e.Same slack e') : Matches slack swap true false e e' :=
  same.mono fun _ => (Bool.noConfusion ·)

theorem Matches.same (matched : Matches slack swap true false e e') : e.Same slack e' :=
  matched.mono fun _ => (Bool.noConfusion ·)

theorem Matches.relax {rigid operand rigid' operand' : Bool}
    (matched : Matches slack (fun _ _ => False) rigid operand e e') :
    Matches slack swap rigid' operand' e e' := by
  induction matched generalizing rigid' operand' with
  | swapped _ impossible => exact impossible.elim
  | atom atoms => exact .atom atoms
  | subscript bases _ placed ih => exact .subscript bases ih placed
  | list fold length _ placed ih => exact .list fold length (fun part => ih part) placed
  | compound operator length _ placed ih =>
    exact .compound operator length (fun part => ih part) placed

/-! ### Before conditions are lowered -/

/-- The second expression matches the first one, with text for operands to which that is granted. -/
abbrev Fits (slack : Slack) (granted : Expr → Prop) : (rigid operand : Bool) → Expr → Expr → Prop :=
  Matches slack fun e e' => granted e ∧ e'.IsText

/-- The second expression matches the first one as a whole value or condition. -/
def FitsRoot (slack : Slack) (granted : Expr → Prop) (e e' : Expr) : Prop :=
  Fits slack granted false false e e' ∨ slack.lenient ∧ e'.IsText

/-- It is granted to every expression. -/
abbrev Anything (_ : Expr) : Prop :=
  True

theorem FitsRoot.loc {granted : Expr → Prop} (matched : FitsRoot slack granted e e') :
    slack.places e.loc e'.loc := by
  rcases matched with matched | ⟨lenient, _⟩
  · exact matched.loc
  · exact slack.anywhere lenient _ _

/-! ### After conditions are lowered -/

/-- Lowered text may stand for an operand, and anything for a list, which has no type. -/
def Evaluates (e e' : Expr) : Prop :=
  e.isList = true ∨ ∃ text loc, e' = .eval text loc

/-- The second expression matches the first one as a lowered value. -/
def ValuesMatch (slack : Slack) (e e' : Expr) : Prop :=
  Matches slack Evaluates false false e e' ∨ slack.lenient ∧ ∃ text loc, e' = .eval text loc

theorem ValuesMatch.loc (matched : ValuesMatch slack e e') : slack.places e.loc e'.loc := by
  rcases matched with matched | ⟨lenient, _⟩
  · exact matched.loc
  · exact slack.anywhere lenient _ _

inductive IsClause : Expr → Prop
  | eval (text : String) (loc : Option Location) : IsClause (.eval text loc)
  | negated (text : String) (loc loc' : Option Location) :
      IsClause (.compound .not [.eval text loc] loc')

/-- The second expression matches the first one as a lowered condition. -/
def ConditionsMatch (slack : Slack) (e e' : Expr) : Prop :=
  Matches slack Evaluates false false e e' ∨ slack.lenient ∧ (e.isList = true ∨ e'.IsClause)

end Expr

/-! ## Statements -/

structure Tag.Matches (slack : Slack) (tag tag' : Tag) : Prop where
  loc : slack.places tag.loc tag'.loc
  mark : slack.lenient ∨ tag'.mark = tag.mark

structure TriggerArg.Matches (slack : Slack) (arg arg' : TriggerArg) : Prop where
  kind : arg.kind.Matches slack arg'.kind
  id : arg.id.Matches slack arg'.id
  count : Option.Rel (Expr.Same slack) arg.count arg'.count
  loc : slack.places arg.loc arg'.loc

/-- The statements match if their values, their conditions, those of blocks and definitions are
related as is given, and if they are the same otherwise. -/
inductive Stmt.Matches (slack : Slack) (value condition block : Expr → Expr → Prop)
    (defines : Stmt → Stmt → Prop) : Stmt → Stmt → Prop
  | assign {target target' right right' : Expr} {own own' : Option Expr} {tag tag' : Tag}
      (targets : target.Same slack target') (values : value right right')
      (conditions : Option.Rel condition own own') (tags : tag.Matches slack tag') :
      Matches slack value condition block defines (.assign target right own tag)
        (.assign target' right' own' tag')
  | openBlock {outer outer' : Expr} {tag tag' : Tag} (blocks : block outer outer')
      (tags : tag.Matches slack tag') :
      Matches slack value condition block defines (.openBlock outer tag) (.openBlock outer' tag')
  | closeBlock {tag tag' : Tag} (tags : tag.Matches slack tag') :
      Matches slack value condition block defines (.closeBlock tag) (.closeBlock tag')
  | trigger {start start' : TriggerArg} {actions actions' : List TriggerArg} {tag tag' : Tag}
      (starts : start.Matches slack start')
      (acts : Forall₂ (TriggerArg.Matches slack) actions actions')
      (tags : tag.Matches slack tag') :
      Matches slack value condition block defines (.trigger start actions tag)
        (.trigger start' actions' tag')
  | use {name name' : Ident} {tag tag' : Tag} (names : name.Matches slack name')
      (tags : tag.Matches slack tag') :
      Matches slack value condition block defines (.use name tag) (.use name' tag')
  | defineExpr {name name' : Ident} {body body' : Expr} {tag tag' : Tag}
      (related : defines (.defineExpr name body tag) (.defineExpr name' body' tag')) :
      Matches slack value condition block defines (.defineExpr name body tag)
        (.defineExpr name' body' tag')
  | defineBlock {name name' : Ident} {body body' : List Stmt} {tag tag' : Tag}
      (related : defines (.defineBlock name body tag) (.defineBlock name' body' tag')) :
      Matches slack value condition block defines (.defineBlock name body tag)
        (.defineBlock name' body' tag')

/-- The statements are the same but for places, if what they define is related. -/
abbrev Stmt.Same (slack : Slack) (defines : Stmt → Stmt → Prop) : Stmt → Stmt → Prop :=
  Stmt.Matches slack (Expr.Same slack) (Expr.Same slack) (Expr.Same slack) defines

/-- Two definitions are of the same name and of the same, but for places. -/
def Stmt.DefinesSame (slack : Slack) : Stmt → Stmt → Prop
  | .defineExpr name body _, .defineExpr name' body' _ =>
    name.Matches slack name' ∧ body.Same slack body'
  | .defineBlock name body _, .defineBlock name' body' _ =>
    name.Matches slack name' ∧ Forall₂ (Stmt.Same slack fun _ _ => True) body body'
  | _, _ => True

/-- The programs are the same but for places. -/
abbrev SameProgram (slack : Slack) : List Stmt → List Stmt → Prop :=
  Forall₂ (Stmt.Same slack (Stmt.DefinesSame slack))

/-- The statements match, with text in the place of whole values and conditions and of operands to
which that is granted. -/
abbrev Stmt.Accords (slack : Slack) (granted : Expr → Prop) (defines : Stmt → Stmt → Prop) :
    Stmt → Stmt → Prop :=
  Stmt.Matches slack (Expr.FitsRoot slack granted) (Expr.FitsRoot slack granted)
    (Expr.FitsRoot slack granted) defines

/-- The statements match once blocks are flattened and conditions lowered. -/
abbrev Stmt.MatchesLowered (slack : Slack) (defines : Stmt → Stmt → Prop) : Stmt → Stmt → Prop :=
  Stmt.Matches slack (Expr.ValuesMatch slack) (Expr.ConditionsMatch slack) (Expr.Same slack) defines

variable {slack : Slack}

theorem Stmt.Matches.mono {value value' condition condition' block block' : Expr → Expr → Prop}
    {defines defines' : Stmt → Stmt → Prop} {s s' : Stmt}
    (matched : Matches slack value condition block defines s s')
    (values : ∀ {e e'}, value e e' → value' e e')
    (conditions : ∀ {e e'}, condition e e' → condition' e e')
    (blocks : ∀ {e e'}, block e e' → block' e e') (related : defines s s' → defines' s s') :
    Matches slack value' condition' block' defines' s s' := by
  cases matched with
  | assign targets rights owns tags =>
    refine .assign targets (values rights) ?_ tags
    cases owns with
    | none => exact .none
    | some own => exact .some (conditions own)
  | openBlock outers tags => exact .openBlock (blocks outers) tags
  | closeBlock tags => exact .closeBlock tags
  | trigger starts acts tags => exact .trigger starts acts tags
  | use names tags => exact .use names tags
  | defineExpr defined => exact .defineExpr (related defined)
  | defineBlock defined => exact .defineBlock (related defined)

variable {tag tag' : Tag}

theorem Tag.Matches.of_lenient (lenient : slack.lenient) : tag.Matches slack tag' :=
  ⟨slack.anywhere lenient _ _, .inl lenient⟩

theorem Tag.Matches.rebuilt (tags : tag.Matches slack tag') :
    tag.rebuilt.Matches slack tag'.rebuilt :=
  ⟨tags.loc, tags.mark.imp id (congrArg (Option.map _))⟩

theorem Tag.Matches.rebuiltIf (tags : tag.Matches slack tag') {fresh fresh' : Bool}
    (same : slack.lenient ∨ fresh' = fresh) :
    (if fresh then tag.rebuilt else tag).Matches slack (if fresh' then tag'.rebuilt else tag') := by
  rcases same with lenient | rfl
  · exact .of_lenient lenient
  · cases fresh' with
    | false => exact tags
    | true => exact tags.rebuilt

/-! ## Programs that differ by a function -/

theorem eq_map_of_forall₂ {α : Type} {f : α → α} {values values' : List α}
    (each : Forall₂ (fun value value' => value' = f value) values values') :
    values' = values.map f := by
  induction each with
  | nil => rfl
  | cons first _ ih => rw [first, ih, map_cons]

theorem eq_map_of_rel {α : Type} {f : α → α} {related : α → α → Prop} {own own' : Option α}
    (matched : Option.Rel related own own') (same : ∀ {a b}, related a b → b = f a) :
    own' = own.map f := by
  cases matched with
  | none => rfl
  | some matched => exact congrArg some (same matched)

end AutomationScript
