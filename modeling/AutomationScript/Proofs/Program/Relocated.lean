import AutomationScript.Grammar.Cursor
import AutomationScript.Proofs.Program.Matching
import AutomationScript.Proofs.Text.Positions

/-!
# Programs in another place

The same program, with every location in it moved by a function that commutes with the union of
locations.  The move that matters takes a text some lines down.
-/

namespace AutomationScript

def Position.down (lines : Nat) (p : Position) : Position :=
  { p with line := p.line + lines }

theorem Position.le_down_iff (lines : Nat) (p q : Position) :
    p.down lines ≤ q.down lines ↔ p ≤ q := by
  rw [Position.le_iff, Position.le_iff]
  simp only [down]
  omega

def Location.down (lines : Nat) (loc : Location) : Location :=
  ⟨loc.start.down lines, loc.stop.down lines⟩

theorem Location.down_union (lines : Nat) (a b : Location) :
    (a.union b).down lines = (a.down lines).union (b.down lines) := by
  have starts := Position.le_down_iff lines a.start b.start
  have stops := Position.le_down_iff lines a.stop b.stop
  simp only [union, down, Position.earlier, Position.later, starts, stops, mk.injEq]
  constructor <;> split <;> rfl

def Ident.relocated (place : Location → Location) (word : Ident) : Ident :=
  { word with loc := word.loc.map place }

namespace Expr

mutual

def relocated (place : Location → Location) : Expr → Expr
  | .string value loc => .string value (loc.map place)
  | .number value loc => .number value (loc.map place)
  | .boolean value loc => .boolean value (loc.map place)
  | .ident word loc => .ident (word.relocated place) (loc.map place)
  | .subscript base key loc =>
    .subscript (base.relocated place) (key.relocated place) (loc.map place)
  | .list values fold loc => .list (relocatedAll place values) fold (loc.map place)
  | .compound operator args loc => .compound operator (relocatedAll place args) (loc.map place)
  | .eval text loc => .eval text (loc.map place)
  | .wildcard loc => .wildcard (loc.map place)
  | .placeholder loc => .placeholder (loc.map place)

def relocatedAll (place : Location → Location) : List Expr → List Expr
  | [] => []
  | e :: rest => e.relocated place :: relocatedAll place rest

end

@[simp] theorem relocatedAll_eq_map (place : Location → Location) (values : List Expr) :
    relocatedAll place values = values.map (relocated place) := by
  induction values with
  | nil => rfl
  | cons e rest ih => rw [relocatedAll, ih, List.map_cons]

end Expr

def PlacedToken.relocated (place : Location → Location) (placed : PlacedToken) : PlacedToken :=
  { placed with loc := place placed.loc }

def TriggerArg.relocated (place : Location → Location) (arg : TriggerArg) : TriggerArg :=
  ⟨arg.kind.relocated place, arg.id.relocated place, arg.count.map (Expr.relocated place),
    arg.loc.map place⟩

def Tag.relocated (place : Location → Location) (tag : Tag) : Tag :=
  { tag with loc := tag.loc.map place }

namespace Stmt

mutual

def relocated (place : Location → Location) : Stmt → Stmt
  | .assign target value condition tag =>
    .assign (target.relocated place) (value.relocated place)
      (condition.map (Expr.relocated place)) (tag.relocated place)
  | .openBlock condition tag => .openBlock (condition.relocated place) (tag.relocated place)
  | .closeBlock tag => .closeBlock (tag.relocated place)
  | .trigger condition actions tag =>
    .trigger (condition.relocated place) (actions.map (TriggerArg.relocated place))
      (tag.relocated place)
  | .defineExpr name body tag =>
    .defineExpr (name.relocated place) (body.relocated place) (tag.relocated place)
  | .defineBlock name body tag =>
    .defineBlock (name.relocated place) (relocatedAll place body) (tag.relocated place)
  | .use name tag => .use (name.relocated place) (tag.relocated place)

def relocatedAll (place : Location → Location) : List Stmt → List Stmt
  | [] => []
  | s :: rest => s.relocated place :: relocatedAll place rest

end

end Stmt

/-! ## Moves down -/

/-- All is the same, but the second program stands some lines further down. -/
def Slack.down (lines : Nat) : Slack where
  places loc loc' := loc' = loc.map (Location.down lines)
  lenient := False
  union {a b _ _} first second := by
    subst first second
    cases a <;> cases b <;> simp [Location.unionAll, Location.down_union]
  anywhere := False.elim

section Down

variable {lines : Nat}

theorem Ident.Matches.eq_relocated {word word' : Ident} (matched : word.Matches (.down lines) word') :
    word' = word.relocated (Location.down lines) := by
  rw [Ident.relocated, ← matched.1, ← matched.2]

theorem Expr.Matches.eq_relocated {swap : Expr → Expr → Prop} {rigid operand : Bool} {e e' : Expr}
    (matched : Matches (.down lines) swap rigid operand e e') :
    e' = e.relocated (Location.down lines) := by
  induction matched with
  | swapped lenient _ => exact lenient.elim
  | atom atoms =>
    cases atoms with
    | ident words placed => rw [relocated, words.eq_relocated, placed]
    | eval texts placed => rw [relocated, texts.resolve_left False.elim, placed]
    | string _ placed | number _ placed | boolean _ placed | wildcard placed
    | placeholder placed => rw [relocated, placed]
  | subscript bases _ placed ih => rw [relocated, bases.eq_relocated, ih, placed]
  | list fold length _ placed ih =>
    have all := eq_map_of_forall₂ (List.forall₂_iff_zip.mpr ⟨length, ih⟩)
    rw [relocated, relocatedAll_eq_map, all, placed]
  | compound operator length _ placed ih =>
    have all := eq_map_of_forall₂ (List.forall₂_iff_zip.mpr ⟨length, ih⟩)
    rw [relocated, relocatedAll_eq_map, all, placed]

theorem Tag.Matches.eq_relocated {tag tag' : Tag} (matched : tag.Matches (.down lines) tag') :
    tag' = tag.relocated (Location.down lines) := by
  rw [Tag.relocated, ← matched.mark.resolve_left False.elim, ← matched.loc]

theorem TriggerArg.Matches.eq_relocated {arg arg' : TriggerArg}
    (matched : arg.Matches (.down lines) arg') : arg' = arg.relocated (Location.down lines) := by
  have count := eq_map_of_rel matched.count Expr.Matches.eq_relocated
  rw [TriggerArg.relocated, ← count, ← matched.kind.eq_relocated, ← matched.id.eq_relocated,
    ← matched.loc]

theorem Stmt.Matches.eq_relocated {s s' : Stmt} (same : s.Same (.down lines) (fun _ _ => False) s') :
    s' = s.relocated (Location.down lines) := by
  cases same with
  | assign targets values conditions tags =>
    rw [relocated, targets.eq_relocated, values.eq_relocated,
      eq_map_of_rel conditions Expr.Matches.eq_relocated, tags.eq_relocated]
  | openBlock blocks tags => rw [relocated, blocks.eq_relocated, tags.eq_relocated]
  | closeBlock tags => rw [relocated, tags.eq_relocated]
  | trigger starts acts tags =>
    have all := eq_map_of_forall₂ (acts.imp fun _ _ act => act.eq_relocated)
    rw [relocated, starts.eq_relocated, all, tags.eq_relocated]
  | use names tags => rw [relocated, names.eq_relocated, tags.eq_relocated]
  | defineExpr impossible => exact impossible.elim
  | defineBlock impossible => exact impossible.elim

end Down

end AutomationScript
