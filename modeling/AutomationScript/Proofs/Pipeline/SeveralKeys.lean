import AutomationScript.Proofs.Lowering.Capture
import AutomationScript.Proofs.Pipeline.Flat
import AutomationScript.Proofs.Pipeline.Unlocated
import AutomationScript.Registry.Builtin

/-!
# Targets with several keys

An assignment to several settings at once, `Sell[Coal, Iron] = …` or `Sell.* = …`, is one assignment
to each of them after the other.  Its value and condition are resolved once for all of them;
placeholders are filled in after that, with the key of each assignment.
-/

namespace AutomationScript

open List

variable {key : Expr}

def Expr.keyNamed (name : String) : Expr :=
  .ident ⟨name, none⟩ none

/-- `base[key] = value if condition`, as a script has it. -/
def Stmt.setting (base : String) (key value : Expr) (condition : Option Expr) : Stmt :=
  .assign (.subscript ⟨base, none⟩ key none) value condition ⟨none, none⟩

def settingOnce (base : String) (key value : Expr) (condition : Option Expr) : List Stmt :=
  [.setting base key value condition]

/-- `base[key] = value if condition` for one key after the other. -/
def settingEach (base : String) (keys : List String) (value : Expr) (condition : Option Expr) :
    List Stmt :=
  keys.map fun key => Stmt.setting base (.keyNamed key) value condition

/-- The key stands for several keys of the base: it is a list of them, or a wildcard if they are the
suffixes of the family. -/
inductive StandsFor (registry : Registry) (base : String) (keys : List String) : Expr → Prop where
  | list (fold : Option Fold) :
      StandsFor registry base keys (.list (keys.map Expr.keyNamed) fold none)
  | wildcard {family : Family} :
      registry.family? base = some family →
      family.suffixes = keys →
      StandsFor registry base keys (.wildcard none)

def reviseParts (revise : Expr → Lowering (Revised Expr)) (value : Expr)
    (condition : Option Expr) : Lowering (Expr × Option Expr) := do
  let value ← revise value
  let condition ← reviseOption revise condition
  return (value.value, condition.value)

/-! ## Programs that differ in one place -/

/-- Two steps come to the same but for one place: both fail in the same way, or they leave `own` and
`other` there, with a value and condition that can be reached. -/
inductive Alike (reached : Expr → Option Expr → Prop) (own other : Expr → Option Expr → List Stmt) :
    Lowering (List Stmt) → Lowering (List Stmt) → Prop where
  | failed (failure : Failure) :
      Alike reached own other (.error failure) (.error failure)
  | lowered {value : Expr} {condition : Option Expr} (front back : List Stmt) :
      reached value condition →
      Alike reached own other (.ok (front ++ own value condition ++ back))
        (.ok (front ++ other value condition ++ back))

namespace Alike

variable {reached later : Expr → Option Expr → Prop}
variable {own other own' other' : Expr → Option Expr → List Stmt}
variable {registry : Registry}
variable {x y : Lowering (List Stmt)}

theorem bind (alike : Alike reached own other x y) {step : List Stmt → Lowering (List Stmt)}
    (next : ∀ {value condition} (front back), reached value condition →
      Alike later own' other' (step (front ++ own value condition ++ back))
        (step (front ++ other value condition ++ back))) :
    Alike later own' other' (x >>= step) (y >>= step) := by
  cases alike with
  | failed failure => exact .failed failure
  | lowered front back isReached => exact next front back isReached

theorem eq (alike : Alike reached own own x y) : x = y := by
  cases alike <;> rfl

theorem mono (alike : Alike reached own other x y)
    (widen : ∀ {value condition}, reached value condition → later value condition) :
    Alike later own other x y := by
  cases alike with
  | failed failure => exact .failed failure
  | lowered front back isReached => exact .lowered front back (widen isReached)

theorem exists_of_ok (alike : Alike reached own other x y) {program : List Stmt}
    (ran : x = .ok program) :
    ∃ front value condition back, reached value condition ∧
      program = front ++ own value condition ++ back := by
  cases alike with
  | failed failure => cases ran
  | lowered front back isReached =>
    cases ran
    exact ⟨front, _, _, back, isReached, rfl⟩

theorem checked {stage : Stage} {program program' : List Stmt}
    (alike : Alike reached own other (stage.run registry program) (stage.run registry program'))
    (sameLeft : ∀ value condition,
      stage.hasLeftover (own value condition) = stage.hasLeftover (other value condition)) :
    Alike reached own other (stage.runChecked registry program)
      (stage.runChecked registry program') := by
  generalize ran : stage.run registry program = x at alike
  generalize ran' : stage.run registry program' = y at alike
  cases alike with
  | failed failure =>
    rw [Stage.runChecked, Stage.runChecked, ran, ran']
    exact .failed failure
  | @lowered value condition front back isReached =>
    rw [runChecked_of_run ran, runChecked_of_run ran', Stage.hasLeftover_append,
      Stage.hasLeftover_append, Stage.hasLeftover_append stage _ back,
      Stage.hasLeftover_append stage front, sameLeft]
    split
    · exact .failed _
    · exact .lowered front back isReached

/-- A step that goes from statement to statement keeps programs alike if it revises the value and
condition in both places in the same way. -/
theorem lowerEach (own other own' other' : Expr → Option Expr → List Stmt)
    {lower : Stmt → Lowering (List Stmt)} (revise : Expr → Lowering (Revised Expr)) {value : Expr}
    {condition : Option Expr}
    (ownRan : AutomationScript.lowerEach lower (own value condition) = (do
      let parts ← reviseParts revise value condition
      return own' parts.1 parts.2))
    (otherRan : AutomationScript.lowerEach lower (other value condition) = (do
      let parts ← reviseParts revise value condition
      return other' parts.1 parts.2))
    (front back : List Stmt) :
    Alike (fun value' condition' => reviseParts revise value condition = .ok (value', condition'))
      own' other' (AutomationScript.lowerEach lower (front ++ own value condition ++ back))
      (AutomationScript.lowerEach lower (front ++ other value condition ++ back)) := by
  simp only [lowerEach_append, ownRan, otherRan]
  cases AutomationScript.lowerEach lower front with
  | error failure => exact .failed failure
  | ok first =>
    cases parts : reviseParts revise value condition with
    | error failure => exact .failed failure
    | ok revised =>
      cases AutomationScript.lowerEach lower back with
      | error failure => exact .failed failure
      | ok last => exact .lowered first last rfl

end Alike

/-! ## Assignments through a step -/

section Assignments

variable {base : String} {keys : List String} {value : Expr} {condition : Option Expr}

theorem Stmt.ofParts_unmarked (target value : Revised Expr) (condition : Revised (Option Expr)) :
    Stmt.ofParts target value condition ⟨none, none⟩ =
      .assign target.value value.value condition.value ⟨none, none⟩ := by
  rw [Stmt.ofParts]
  split <;> rfl

theorem Stmt.revise_setting
    {target revise : Expr → Lowering (Revised Expr)} {key' : Expr} {new : Revised Expr}
    (targetRan : target (.subscript ⟨base, none⟩ key none) = .ok new)
    (newKey : new.value = .subscript ⟨base, none⟩ key' none) :
    (do return [← (Stmt.setting base key value condition).revise target revise]) = (do
      let parts ← reviseParts revise value condition
      return [Stmt.setting base key' parts.1 parts.2]) := by
  rw [Stmt.setting, Stmt.revise, targetRan, reviseParts]
  cases revise value with
  | error failure => rfl
  | ok newValue =>
    cases reviseOption revise condition with
    | error failure => rfl
    | ok newCondition =>
      show Except.ok [Stmt.ofParts new newValue newCondition ⟨none, none⟩] = _
      rw [Stmt.ofParts_unmarked, newKey]
      rfl

theorem lowerEach_single (lower : Stmt → Lowering (List Stmt)) (s : Stmt) :
    lowerEach lower [s] = lower s := by
  rw [lowerEach, lowerEach]
  cases lower s with
  | error failure => rfl
  | ok lowered => exact congrArg Except.ok (append_nil lowered)

theorem lowerEach_settingEach (nonempty : keys ≠ []) {lower : Stmt → Lowering (List Stmt)}
    {outcome : Lowering (Expr × Option Expr)}
    (each : ∀ key, lower (.setting base (.keyNamed key) value condition) = (do
      let parts ← outcome
      return [Stmt.setting base (.keyNamed key) parts.1 parts.2])) :
    lowerEach lower (settingEach base keys value condition) = (do
      let parts ← outcome
      return settingEach base keys parts.1 parts.2) := by
  unfold settingEach
  cases outcome with
  | error failure =>
    obtain ⟨first, rest, rfl⟩ := exists_cons_of_ne_nil nonempty
    rw [map_cons, lowerEach, each]
    rfl
  | ok parts =>
    clear nonempty
    induction keys with
    | nil => rfl
    | cons first rest ih =>
      rw [map_cons, lowerEach, each, ih]
      rfl

theorem any_settingEach (nonempty : keys ≠ []) {test : Stmt → Bool} {answer : Bool}
    (each : ∀ key, test (.setting base (.keyNamed key) value condition) = answer) :
    (settingEach base keys value condition).any test = answer := by
  have composed : (test ∘ fun key => Stmt.setting base (.keyNamed key) value condition) =
      fun _ => answer := funext each
  rw [settingEach, any_map, composed]
  obtain ⟨first, rest, rfl⟩ := exists_cons_of_ne_nil nonempty
  cases answer <;> simp

end Assignments

/-! ## The steps before placeholders -/

section Steps

variable {registry : Registry} {base : String} {keys : List String}

theorem Definition.collect_between {middle : List Stmt} (plain : ∀ s ∈ middle, s.definition? = none)
    (definitions : Table Definition) (front back : List Stmt) :
    collect registry definitions (front ++ middle ++ back) = (do
      let first ← collect registry definitions front
      let last ← collect registry first.definitions back
      return ⟨last.definitions, first.statements ++ middle ++ last.statements⟩) := by
  rw [collect_append, collect_append]
  cases collect registry definitions front with
  | error failure => rfl
  | ok first =>
    dsimp only [bind, Except.bind, pure, Except.pure]
    rw [collect_of_definition?_eq_none plain]

theorem alike_definitions (nonempty : keys ≠ []) (key value : Expr) (condition : Option Expr)
    (front back : List Stmt) :
    Alike
      (fun value' condition' => ∃ collected,
        Definition.collect registry .empty (front ++ back) = .ok collected ∧
        reviseParts (Definition.expandExpr collected.definitions collected.definitions.size [])
          value condition = .ok (value', condition'))
      (settingOnce base key) (settingEach base keys)
      (Stage.definitions.runChecked registry
        (front ++ settingOnce base key value condition ++ back))
      (Stage.definitions.runChecked registry
        (front ++ settingEach base keys value condition ++ back)) := by
  refine Alike.checked ?_ fun value condition => (any_settingEach nonempty fun _ => rfl).symm
  show Alike _ _ _ (Definition.lower registry _) (Definition.lower registry _)
  have plainOnce : ∀ s ∈ settingOnce base key value condition, s.definition? = none :=
    forall_mem_singleton.mpr rfl
  have plainEach : ∀ s ∈ settingEach base keys value condition, s.definition? = none := by
    intro s member
    obtain ⟨key, _, rfl⟩ := mem_map.mp member
    rfl
  rw [Definition.lower, Definition.lower, Definition.collect_append,
    Definition.collect_between plainOnce, Definition.collect_between plainEach]
  cases Definition.collect registry .empty front with
  | error failure => exact .failed failure
  | ok first =>
    dsimp only [bind, Except.bind, pure, Except.pure]
    cases Definition.collect registry first.definitions back with
    | error failure => exact .failed failure
    | ok last =>
      dsimp only
      rw [Definition.expandStmts, Definition.expandStmts]
      refine (Alike.lowerEach (settingOnce base key) (settingEach base keys)
        (settingOnce base key) (settingEach base keys)
        (Definition.expandExpr last.definitions last.definitions.size []) ?_ ?_ _ _).mono
        fun revised => ⟨_, rfl, revised⟩
      · exact (lowerEach_single _ _).trans (Stmt.revise_setting rfl rfl)
      · exact lowerEach_settingEach nonempty fun key => Stmt.revise_setting rfl rfl

def listOf (keys : List String) (fold : Option Fold) : Expr :=
  .list (keys.map Expr.keyNamed) fold none

theorem Wildcard.expandElements_keys (registry : Registry) (base : Ident) (keys : List String) :
    expandElements registry base (keys.map Expr.keyNamed) =
      .ok (.kept (keys.map Expr.keyNamed)) := by
  induction keys with
  | nil => rfl
  | cons key rest ih =>
    rw [map_cons, expandElements_cons base rfl, ih]
    rfl

theorem StandsFor.exists_expand (stands : StandsFor registry base keys key) :
    ∃ new fold, Wildcard.expand registry (.subscript ⟨base, none⟩ key none) = .ok new ∧
      new.value = .subscript ⟨base, none⟩ (listOf keys fold) none := by
  cases stands with
  | list fold =>
    refine ⟨.kept (.subscript ⟨base, none⟩ (listOf keys fold) none), fold, ?_, rfl⟩
    rw [Wildcard.expand, Wildcard.expandKey, Wildcard.expandElements_keys]
    rfl
  | wildcard isFamily suffixes =>
    refine ⟨.new (.subscript ⟨base, none⟩ (listOf keys none) none), none, ?_, rfl⟩
    rw [Wildcard.expand, Wildcard.expandKey, Wildcard.suffixes, isFamily, ← suffixes]
    rfl

theorem noWildcard_keys (keys : List String) :
    Expr.anyHasNode true Expr.isWildcard (keys.map Expr.keyNamed) = false := by
  induction keys with
  | nil => rfl
  | cons key rest ih =>
    rw [map_cons, Expr.anyHasNode, ih]
    rfl

theorem alike_wildcards (nonempty : keys ≠ []) {new : Revised Expr} {fold : Option Fold}
    (expanded : Wildcard.expand registry (.subscript ⟨base, none⟩ key none) = .ok new)
    (newKey : new.value = .subscript ⟨base, none⟩ (listOf keys fold) none) (value : Expr)
    (condition : Option Expr) (front back : List Stmt) :
    Alike
      (fun value' condition' =>
        reviseParts (Wildcard.expand registry) value condition = .ok (value', condition'))
      (settingOnce base (listOf keys fold)) (settingEach base keys)
      (Stage.wildcards.runChecked registry (front ++ settingOnce base key value condition ++ back))
      (Stage.wildcards.runChecked registry
        (front ++ settingEach base keys value condition ++ back)) := by
  refine Alike.checked ?_ fun value condition => ?_
  · refine Alike.lowerEach (settingOnce base key) (settingEach base keys)
      (settingOnce base (listOf keys fold)) (settingEach base keys) (Wildcard.expand registry) ?_ ?_
      front back
    · exact (lowerEach_single _ _).trans (Stmt.revise_setting expanded newKey)
    · exact lowerEach_settingEach nonempty fun key => Stmt.revise_setting rfl rfl
  · have each : ∀ key, (Stmt.setting base (.keyNamed key) value condition).hasNode true true
          Expr.isWildcard =
        (value.hasNode true Expr.isWildcard ||
          (condition.map (Expr.hasNode true Expr.isWildcard)).getD false) :=
      fun _ => rfl
    refine Eq.trans ?_ (any_settingEach nonempty each).symm
    simp [settingOnce, Stage.hasLeftover, Stmt.setting, Stmt.hasNode, listOf, Expr.hasNode,
      Expr.isWildcard, noWildcard_keys]

theorem Lists.unroll_keys (base : String) (keys : List String) (fold : Option Fold) :
    unroll (.subscript ⟨base, none⟩ (listOf keys fold) none) =
      .ok (keys.map fun key => .new (.subscript ⟨base, none⟩ (.keyNamed key) none)) := by
  show unrollKeys ⟨base, none⟩ (keys.map Expr.keyNamed) = _
  induction keys with
  | nil => rfl
  | cons key rest ih =>
    rw [map_cons, unrollKeys, ih]
    rfl

theorem Lists.lowerStmt_setting (keys : List String) {targets : List (Revised Expr)}
    (unrolled : unroll (.subscript ⟨base, none⟩ key none) = .ok targets)
    (isTargets : targets.map Revised.value =
      keys.map fun key => .subscript ⟨base, none⟩ (.keyNamed key) none)
    (value : Expr) (condition : Option Expr) :
    lowerStmt registry (.setting base key value condition) = (do
      let parts ← reviseParts (resolveRoot registry) value condition
      return settingEach base keys parts.1 parts.2) := by
  rw [Stmt.setting, lowerStmt, reviseParts, unrolled]
  cases resolveRoot registry value with
  | error failure => rfl
  | ok newValue =>
    cases reviseOption (resolveRoot registry) condition with
    | error failure => rfl
    | ok newCondition =>
      refine congrArg Except.ok ?_
      have each : (targets.map fun target => Stmt.ofParts target newValue newCondition
            ⟨none, none⟩) =
          (targets.map Revised.value).map fun target =>
            .assign target newValue.value newCondition.value ⟨none, none⟩ := by
        rw [map_map]
        exact map_congr_left fun target _ =>
          Stmt.ofParts_unmarked target newValue newCondition
      rw [each, isTargets, map_map]
      rfl

theorem alike_lists (nonempty : keys ≠ []) (fold : Option Fold) (value : Expr)
    (condition : Option Expr) (front back : List Stmt) :
    Alike
      (fun value' condition' =>
        reviseParts (Lists.resolveRoot registry) value condition = .ok (value', condition'))
      (settingEach base keys) (settingEach base keys)
      (Stage.lists.runChecked registry
        (front ++ settingOnce base (listOf keys fold) value condition ++ back))
      (Stage.lists.runChecked registry
        (front ++ settingEach base keys value condition ++ back)) := by
  refine Alike.checked ?_ fun _ _ => rfl
  refine Alike.lowerEach (settingOnce base (listOf keys fold)) (settingEach base keys)
    (settingEach base keys) (settingEach base keys) (Lists.resolveRoot registry) ?_ ?_ front back
  · rw [settingOnce, lowerEach_single]
    refine Lists.lowerStmt_setting keys (Lists.unroll_keys base keys fold) ?_ value condition
    rw [map_map]
    rfl
  · refine lowerEach_settingEach nonempty fun key => ?_
    exact Lists.lowerStmt_setting [key] rfl rfl value condition

/-- The value and condition of an assignment as they are when placeholders are filled in. -/
def resolveParts (registry : Registry) (definitions : Table Definition) (value : Expr)
    (condition : Option Expr) : Lowering (Expr × Option Expr) := do
  let expanded ← reviseParts (Definition.expandExpr definitions definitions.size []) value condition
  let starless ← reviseParts (Wildcard.expand registry) expanded.1 expanded.2
  reviseParts (Lists.resolveRoot registry) starless.1 starless.2

def Stage.beforePlaceholders : List Stage :=
  [.definitions, .wildcards, .lists]

theorem alike_beforePlaceholders (nonempty : keys ≠ [])
    (stands : StandsFor registry base keys key) (value : Expr) (condition : Option Expr)
    (front back : List Stmt) :
    Alike
      (fun value' condition' => ∃ collected,
        Definition.collect registry .empty (front ++ back) = .ok collected ∧
        resolveParts registry collected.definitions value condition = .ok (value', condition'))
      (settingEach base keys) (settingEach base keys)
      (lowerThrough registry Stage.beforePlaceholders
        (front ++ settingOnce base key value condition ++ back))
      (lowerThrough registry Stage.beforePlaceholders
        (front ++ settingEach base keys value condition ++ back)) := by
  obtain ⟨new, fold, expanded, newKey⟩ := stands.exists_expand
  refine (alike_definitions nonempty key value condition front back).bind ?_
  rintro value₁ condition₁ front₁ back₁ ⟨collected, collectedRan, first⟩
  refine (alike_wildcards nonempty expanded newKey value₁ condition₁ front₁ back₁).bind ?_
  intro value₂ condition₂ front₂ back₂ second
  refine ((alike_lists nonempty fold value₂ condition₂ front₂ back₂).mono ?_).bind
    fun front back => .lowered front back
  intro value₃ condition₃ third
  refine ⟨collected, collectedRan, ?_⟩
  rw [resolveParts, first]
  show (reviseParts (Wildcard.expand registry) value₁ condition₁ >>= _) = _
  rw [second]
  exact third

end Steps

/-! ## Placeholders -/

namespace Expr

mutual

/-- The expression with a name in the place of every placeholder. -/
def withKey (word : Ident) : Expr → Expr
  | .placeholder loc => .ident word loc
  | .subscript base key loc => .subscript base (key.withKey word) loc
  | .list values fold loc => .list (withKeyAll word values) fold loc
  | .compound operator args loc => .compound operator (withKeyAll word args) loc
  | e => e

def withKeyAll (word : Ident) : List Expr → List Expr
  | [] => []
  | e :: rest => e.withKey word :: withKeyAll word rest

end

end Expr

namespace Placeholder

/-- What is filled in under a target with this key. -/
def rule (word : Ident) : Expr → Option (Lowering (Revised Expr))
  | .placeholder loc => some (pure (.new (.ident word loc)))
  | _ => none

theorem fill_eq_revise (word : Ident) (e : Expr) : fill (some word) e = e.revise (rule word) :=
  rfl

mutual

theorem revise_rule (word : Ident) :
    (e : Expr) → e.revise (rule word) =
      .ok ⟨e.withKey word, e.hasNode true Expr.isPlaceholder⟩
  | .subscript base key loc => by
      show (key.revise (rule word) >>= _) = _
      rw [revise_rule word key]
      rfl
  | .list values fold loc => by
      show (Expr.reviseAll (rule word) values >>= _) = _
      rw [reviseAll_rule word values]
      rfl
  | .compound operator args loc => by
      show (Expr.reviseAll (rule word) args >>= _) = _
      rw [reviseAll_rule word args]
      rfl
  | .string _ _ | .number _ _ | .boolean _ _ | .ident _ _ | .eval _ _ | .wildcard _
  | .placeholder _ => rfl

theorem reviseAll_rule (word : Ident) :
    (values : List Expr) → Expr.reviseAll (rule word) values =
      .ok ⟨Expr.withKeyAll word values, Expr.anyHasNode true Expr.isPlaceholder values⟩
  | [] => rfl
  | e :: rest => by
      rw [Expr.reviseAll, revise_rule word e, reviseAll_rule word rest]
      rfl

end

/-- Under a target with a key, every placeholder stands for the key. -/
theorem lowerStmt_setting (base key : String) (value : Expr) (condition : Option Expr) :
    lowerStmt (.setting base (.keyNamed key) value condition) =
      .ok [.setting base (.keyNamed key) (value.withKey ⟨key, none⟩)
        (condition.map (Expr.withKey ⟨key, none⟩))] := by
  have filled (e : Expr) : fill (some ⟨key, none⟩) e =
      .ok ⟨e.withKey ⟨key, none⟩, e.hasNode true Expr.isPlaceholder⟩ :=
    (fill_eq_revise ⟨key, none⟩ e).trans (revise_rule ⟨key, none⟩ e)
  show (do
    let value ← fill (some ⟨key, none⟩) value
    let condition ← reviseOption (fill (some ⟨key, none⟩)) condition
    return [Stmt.ofParts (.kept (.subscript ⟨base, none⟩ (.keyNamed key) none)) value condition
      ⟨none, none⟩]) = _
  rw [filled]
  cases condition with
  | none => exact congrArg (Except.ok [·]) (Stmt.ofParts_unmarked _ _ _)
  | some condition =>
    rw [reviseOption, filled]
    exact congrArg (Except.ok [·]) (Stmt.ofParts_unmarked _ _ _)

theorem lower_settingEach (base : String) (keys : List String) (value : Expr)
    (condition : Option Expr) :
    lower (settingEach base keys value condition) =
      .ok (keys.map fun key => .setting base (.keyNamed key) (value.withKey ⟨key, none⟩)
        (condition.map (Expr.withKey ⟨key, none⟩))) := by
  unfold settingEach lower
  induction keys with
  | nil => rfl
  | cons key rest ih =>
    rw [map_cons, lowerEach, lowerStmt_setting, ih]
    rfl

end Placeholder

/-! ## Programs -/

/-- An assignment to a key that stands for several, a list with any fold or a wildcard, compiles as
the assignments to each of them do, one after the other: to the same document, or with the same
failure but for the places of errors.  When placeholders are filled in, there is one assignment for
each key, with the value and condition that all of them share and the key for every placeholder. -/
theorem compileProgram_severalKeys
    {registry : Registry} (before after : List Stmt) {base : String} {keys : List String}
    (nonempty : keys ≠ []) {key : Expr} (stands : StandsFor registry base keys key) (value : Expr)
    (condition : Option Expr) {program program' : List Stmt}
    (atOnce : program.map Stmt.unlocated =
      (before ++ [Stmt.setting base key value condition] ++ after).map Stmt.unlocated)
    (oneByOne : program'.map Stmt.unlocated =
      (before ++ settingEach base keys value condition ++ after).map Stmt.unlocated) :
    (compileProgram registry program).mapError CompileFailure.unlocated =
      (compileProgram registry program').mapError CompileFailure.unlocated ∧
    ∀ whole ∈ [before ++ [Stmt.setting base key value condition] ++ after,
        before ++ settingEach base keys value condition ++ after],
      ∀ filled, lowerThrough registry [.definitions, .wildcards, .lists, .placeholders] whole =
        .ok filled →
      ∃ collected front value' condition' back,
        Definition.collect registry .empty (before ++ after) = .ok collected ∧
        resolveParts registry collected.definitions value condition = .ok (value', condition') ∧
        filled = front ++ (keys.map fun key => Stmt.setting base (.keyNamed key)
          (value'.withKey ⟨key, none⟩) (condition'.map (Expr.withKey ⟨key, none⟩))) ++ back := by
  have alike := alike_beforePlaceholders nonempty stands value condition before after
  have resolved := alike.eq
  constructor
  · have lowered : lowerProgram registry (before ++ settingOnce base key value condition ++ after) =
        lowerProgram registry (before ++ settingEach base keys value condition ++ after) := by
      have split : Stage.all = Stage.beforePlaceholders ++
        [.placeholders, .aliases, .families, .blocks, .conditions, .types, .chains] := rfl
      rw [lowerProgram, lowerProgram, split, lowerThrough_append, lowerThrough_append, resolved]
    have compiled : compileProgram registry
          (before ++ settingOnce base key value condition ++ after) =
        compileProgram registry (before ++ settingEach base keys value condition ++ after) := by
      rw [compileProgram, compileProgram, lowered]
    rw [← mapError_compileProgram, ← mapError_compileProgram, atOnce, oneByOne,
      mapError_compileProgram, mapError_compileProgram, ← compiled]
    rfl
  · intro whole isWhole filled ran
    have split : [Stage.definitions, .wildcards, .lists, .placeholders] =
      Stage.beforePlaceholders ++ [.placeholders] := rfl
    rw [split, lowerThrough_append] at ran
    obtain ⟨unfilled, unfilledRan, filledRan⟩ := bind_eq_ok_iff.mp ran
    have unfilledOnce : lowerThrough registry Stage.beforePlaceholders
        (before ++ settingOnce base key value condition ++ after) = .ok unfilled := by
      rcases List.mem_cons.mp isWhole with rfl | isLast
      · exact unfilledRan
      · rw [List.mem_singleton.mp isLast] at unfilledRan
        exact resolved.trans unfilledRan
    obtain ⟨front, value', condition', back, ⟨collected, collectedRan, partsRan⟩, rfl⟩ :=
      alike.exists_of_ok unfilledOnce
    obtain ⟨lowered, loweredRan, same⟩ := bind_eq_ok_iff.mp filledRan
    cases same
    obtain ⟨first, last, firstRan, _, rfl⟩ :=
      lowerEach_append_eq_ok_iff.mp (runChecked_eq_ok_iff.mp loweredRan).1
    obtain ⟨front', middle, _, middleRan, rfl⟩ := lowerEach_append_eq_ok_iff.mp firstRan
    have eachRan := Placeholder.lower_settingEach base keys value' condition'
    cases eachRan.symm.trans middleRan
    exact ⟨collected, front', value', condition', last, collectedRan, partsRan, rfl⟩

/-- `Sell[Coal, Iron or] = ON if ResourceDemanded[...]` and `SmelterFuelPriority.* = 2` compile as
the six assignments that they stand for. -/
theorem compileProgram_severalKeys_salesAndFuels :
    ∃ document,
      compileProgram Registry.builtin
        [.setting "Sell" (.list (["Coal", "Iron"].map Expr.keyNamed) (some .or) none)
          (.boolean true none) (some (.subscript ⟨"ResourceDemanded", none⟩ (.placeholder none) none)),
          .setting "SmelterFuelPriority" (.wildcard none) (.number (.ofInt 2) none) none] =
        .ok document ∧
      compileProgram Registry.builtin
        (settingEach "Sell" ["Coal", "Iron"] (.boolean true none)
          (some (.subscript ⟨"ResourceDemanded", none⟩ (.placeholder none) none)) ++
          settingEach "SmelterFuelPriority" ["Wood", "Coal", "Oil", "Inferno"]
            (.number (.ofInt 2) none) none) = .ok document ∧
      document.overrides.entries.map (fun entry => (entry.1, entry.2.map Rule.arg1)) =
        [("sellCoal", [.string "Coal"]), ("sellIron", [.string "Iron"])] ∧
      document.settings.entries =
        [("smelter_fuel_p_Wood", .integer 2), ("smelter_fuel_p_Coal", .integer 2),
          ("smelter_fuel_p_Oil", .integer 2), ("smelter_fuel_p_Inferno", .integer 2)] := by
  generalize demanded :
    some (Expr.subscript ⟨"ResourceDemanded", none⟩ (.placeholder none) none) = condition
  have fuelFamily : (Registry.builtin.family? "SmelterFuelPriority").map Family.suffixes =
      some ["Wood", "Coal", "Oil", "Inferno"] := by decide +kernel
  obtain ⟨family, isFamily, suffixes⟩ := Option.map_eq_some_iff.mp fuelFamily
  have fuelsLast := (compileProgram_severalKeys
    (settingEach "Sell" ["Coal", "Iron"] (.boolean true none) condition) [] (List.cons_ne_nil _ _)
    (.wildcard isFamily suffixes) (.number (.ofInt 2) none) none rfl rfl).1
  have sales : StandsFor Registry.builtin "Sell" ["Coal", "Iron"]
    (.list (["Coal", "Iron"].map Expr.keyNamed) (some .or) none) := .list (some .or)
  have salesFirst := (compileProgram_severalKeys [] [.setting "SmelterFuelPriority"
    (.wildcard none) (.number (.ofInt 2) none) none] (List.cons_ne_nil _ _) sales
    (.boolean true none) condition rfl rfl).1
  have same := salesFirst.trans fuelsLast
  generalize eachRan : compileProgram Registry.builtin
    (settingEach "Sell" ["Coal", "Iron"] (.boolean true none) condition ++
      settingEach "SmelterFuelPriority" ["Wood", "Coal", "Oil", "Inferno"]
        (.number (.ofInt 2) none) none) = outcome
  have content : outcome.toOption.map (fun document =>
        (document.overrides.entries.map (fun entry => (entry.1, entry.2.map Rule.arg1)),
          document.settings.entries)) =
      some ([("sellCoal", [.string "Coal"]), ("sellIron", [.string "Iron"])],
        [("smelter_fuel_p_Wood", .integer 2), ("smelter_fuel_p_Coal", .integer 2),
          ("smelter_fuel_p_Oil", .integer 2), ("smelter_fuel_p_Inferno", .integer 2)]) := by
    rw [← eachRan, ← demanded]
    decide +kernel
  cases outcome with
  | error failure => cases content
  | ok document =>
      have parts := Prod.mk.inj (Option.some.inj content)
      refine ⟨document, mapError_eq_ok_iff.mp (same.trans ?_), rfl, parts.1, parts.2⟩
      exact mapError_eq_ok_iff.mpr eachRan

end AutomationScript
