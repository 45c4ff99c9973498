import AutomationScript.Lowering.Definitions
import AutomationScript.Lowering.Placeholders
import AutomationScript.Proofs.Lowering.Agreement
import AutomationScript.Proofs.Lowering.Descents
import AutomationScript.Proofs.Table

/-!
# Expanding two programs

Definitions, wildcards and placeholders are written out in the same way in two programs that match.
-/

namespace AutomationScript

open List Slack

variable {slack : Slack}
variable {program program' : List Stmt}

/-! ## Definitions -/

namespace Definition

variable {granted granted' : Expr → Prop} {definitions definitions' : Table Definition}

inductive Matches (slack : Slack) (granted : Expr → Prop) : Definition → Definition → Prop
  | expr {body body' : Expr}
      (bodies : Expr.Fits slack granted false false body body') :
      Matches slack granted (.expr body) (.expr body')
  | block {body body' : List Stmt}
      (bodies : Forall₂ (Stmt.Accords slack granted fun _ _ => True) body body') :
      Matches slack granted (.block body) (.block body')

/-- Two definitions are of the same name, and what they define it as matches. -/
def Corresponds (slack : Slack) (granted : Expr → Prop) : Stmt → Stmt → Prop
  | .defineExpr name body _, .defineExpr name' body' _ =>
    name.Matches slack name' ∧ Matches slack granted (.expr body) (.expr body')
  | .defineBlock name body _, .defineBlock name' body' _ =>
    name.Matches slack name' ∧ Matches slack granted (.block body) (.block body')
  | _, _ => True

structure TablesMatch (slack : Slack) (granted : Expr → Prop)
    (definitions definitions' : Table Definition) : Prop where
  keys : definitions'.keys = definitions.keys
  entries : ∀ name,
    Option.Rel (Matches slack granted) (definitions.get? name) (definitions'.get? name)

theorem agree_enter (registry : Registry) (tables : TablesMatch slack granted definitions definitions')
    {name name' : Ident} (names : name.Matches slack name') {body body' : Definition}
    (bodies : body.Matches slack granted body') :
    slack.Agree (TablesMatch slack granted) (enter registry definitions name body)
      (enter registry definitions' name' body') := by
  rw [enter, enter, Table.contains, Table.contains, tables.keys, names.1]
  split
  · exact .refuse names.2
  · split
    · exact .refuse names.2
    · refine ⟨by rw [Table.keys_insert, Table.keys_insert, tables.keys], fun tested => ?_⟩
      rw [Table.get?_insert, Table.get?_insert]
      split
      · exact .some bodies
      · exact tables.entries tested

theorem agree_collect (registry : Registry)
    (tables : TablesMatch slack granted definitions definitions')
    (matched : Forall₂ (Stmt.Accords slack granted (Corresponds slack granted))
      program program') :
    slack.Agree (fun found found' => TablesMatch slack granted found.definitions found'.definitions ∧
        Forall₂ (Stmt.Accords slack granted fun _ _ => True) found.statements
          found'.statements)
      (collect registry definitions program) (collect registry definitions' program') := by
  induction matched generalizing definitions definitions' with
  | nil => exact ⟨tables, .nil⟩
  | @cons s s' rest rest' first _ ih =>
    -- a statement that defines nothing is handed on
    have handedOn (plain : s.Accords slack granted (fun _ _ => True) s') :
        slack.Agree (fun found found' =>
            TablesMatch slack granted found.definitions found'.definitions ∧
            Forall₂ (Stmt.Accords slack granted fun _ _ => True) found.statements
              found'.statements)
          (do
            let collected ← collect registry definitions rest
            return { collected with statements := s :: collected.statements })
          (do
            let collected ← collect registry definitions' rest'
            return { collected with statements := s' :: collected.statements }) :=
      (ih tables).bind fun found found' holds _ _ => ⟨holds.1, .cons plain holds.2⟩
    cases first with
    | defineExpr related =>
      exact (agree_enter registry tables related.1 related.2).bind fun _ _ grown _ _ => ih grown
    | defineBlock related =>
      exact (agree_enter registry tables related.1 related.2).bind fun _ _ grown _ _ => ih grown
    | assign targets values conditions tags =>
      exact handedOn (.assign targets values conditions tags)
    | openBlock blocks tags => exact handedOn (.openBlock blocks tags)
    | closeBlock tags => exact handedOn (.closeBlock tags)
    | trigger starts acts tags => exact handedOn (.trigger starts acts tags)
    | use names tags => exact handedOn (.use names tags)

/-- The expression satisfies `granted` once its definitions are expanded. -/
def GrantedLater (granted : Expr → Prop) (definitions : Table Definition) (e : Expr) : Prop :=
  ∀ fuel active found, expandExpr definitions fuel active e = .ok found → granted found.value

theorem descends_expandExpr (definitions : Table Definition) (fuel : Nat) (active : List String) :
    Descends (expandExpr definitions fuel active) := by
  have isRevision : ∃ rule, expandExpr definitions fuel active = Expr.revise rule ∧
      (∀ values fold loc, rule (.list values fold loc) = none) ∧
      ∀ operator args loc, rule (.compound operator args loc) = none :=
    ⟨_, funext fun e => by rw [expandExpr], fun _ _ _ => rfl, fun _ _ _ => rfl⟩
  obtain ⟨rule, same, list, compound⟩ := isRevision
  rw [same]
  exact descends_revise list compound

theorem agree_expandExpr
    (tables : TablesMatch slack (GrantedLater granted definitions) definitions definitions')
    (fuel : Nat) (active : List String) :
    slack.StepsAgree False (GrantedLater granted definitions) granted
      (expandExpr definitions fuel active) (expandExpr definitions' fuel active) := by
  -- a name stands for the body of its definition, which is expanded with less fuel
  induction fuel using Nat.strongRecOn generalizing active with
  | ind fuel ih =>
    refine
      { descends := descends_expandExpr definitions fuel active
        descends' := descends_expandExpr definitions' fuel active
        written := fun _ _ _ _ _ _ => by rw [expandExpr]; rfl
        lowered := fun _ _ => by rw [expandExpr]; rfl
        grants := fun grants ran => grants fuel active _ ran
        subscript := ?subscript
        atom := ?atom }
    case subscript =>
      intro rigid base base' key key' loc loc' bases keys placed _
      rw [expandExpr, expandExpr]
      exact ⟨.subscript bases keys.same.matches placed, .inr rfl⟩
    case atom =>
      intro rigid e e' reached atoms
      obtain rfl : rigid = false := Bool.eq_false_iff.mpr reached
      have kept : Expr.Fits slack granted false false e e' := .atom atoms
      rw [expandExpr, expandExpr]
      cases atoms with
      | @ident word word' loc loc' words placed =>
        have entry := tables.entries word.name
        rw [Expr.revise_atom _ rfl, Expr.revise_atom _ rfl]
        dsimp only
        rw [words.1]
        generalize definitions.get? word.name = found at entry
        generalize definitions'.get? word.name = found' at entry
        cases entry with
        | none => exact ⟨kept, .inr rfl⟩
        | some bodies =>
          cases bodies with
          | block _ => exact .refuse placed
          | expr bodies =>
            dsimp only
            by_cases isActive : active.contains word.name = true
            · rw [if_pos isActive, if_pos isActive]
              exact .refuse words.2
            · rw [if_neg isActive, if_neg isActive]
              cases fuel with
              | zero => exact .refuse words.2
              | succ fewer =>
                have expanded := (ih fewer (Nat.lt_succ_self fewer)
                  (word.name :: active)).expr (Bool.noConfusion ·) bodies
                exact expanded.bind fun _ _ revised _ _ => ⟨revised.1, .inr rfl⟩
      | _ => exact ⟨kept, .inr rfl⟩

theorem agree_expandStmts
    (tables : TablesMatch slack (GrantedLater granted definitions) definitions definitions')
    (defines : Stmt → Stmt → Prop) (fuel : Nat) (active : List String)
    {statements statements' : List Stmt}
    (matched : Forall₂ (Stmt.Accords slack (GrantedLater granted definitions) fun _ _ => True)
      statements statements') :
    slack.Agree (Forall₂ (Stmt.Accords slack granted defines))
      (expandStmts definitions fuel active statements)
      (expandStmts definitions' fuel active statements') := by
  induction fuel using Nat.strongRecOn generalizing active statements statements' with
  | ind fuel ih =>
    rw [expandStmts, expandStmts]
    refine agree_lowerEach matched fun {s s'} first => ?_
    have revised (plain : s.Accords slack (GrantedLater granted definitions) defines s') :=
      agree_reviseStmt agree_unrevised (agree_expandExpr tables fuel active) plain
    cases first with
    | @use name name' tag tag' names tags =>
      have entry := tables.entries name.name
      dsimp only
      rw [names.1]
      generalize definitions.get? name.name = found at entry
      generalize definitions'.get? name.name = found' at entry
      cases entry with
      | none => exact .refuse names.2
      | some bodies =>
        cases bodies with
        | expr _ => exact .refuse names.2
        | block bodies =>
          dsimp only
          split
          · exact .refuse names.2
          · cases fuel with
            | zero => exact .refuse names.2
            | succ fewer => exact ih fewer (Nat.lt_succ_self fewer) _ bodies
    | defineExpr _ => exact .broken
    | defineBlock _ => exact .broken
    | assign targets values conditions tags =>
      exact revised (.assign targets values conditions tags)
    | openBlock blocks tags => exact revised (.openBlock blocks tags)
    | closeBlock tags => exact revised (.closeBlock tags)
    | trigger starts acts tags => exact revised (.trigger starts acts tags)

/-- The relation of the two programs is asked for with the definitions that are collected from the
first one, or with any if none are. -/
theorem agree_lower (registry : Registry) (defines : Stmt → Stmt → Prop) (matched : ∀ definitions,
      (∀ found, collect registry .empty program = .ok found → definitions = found.definitions) →
      Forall₂ (Stmt.Accords slack (GrantedLater granted definitions)
        (Corresponds slack (GrantedLater granted definitions))) program program') :
    slack.Agree (Forall₂ (Stmt.Accords slack granted defines)) (lower registry program)
      (lower registry program') := by
  obtain ⟨definitions, collected⟩ : ∃ definitions, ∀ found,
      collect registry .empty program = .ok found → definitions = found.definitions := by
    cases collect registry .empty program with
    | ok found => exact ⟨found.definitions, fun _ same => by rw [Except.ok.inj same]⟩
    | error failure => exact ⟨.empty, fun _ impossible => by cases impossible⟩
  have noneYet : TablesMatch slack (GrantedLater granted definitions) .empty .empty :=
    ⟨rfl, fun _ => .none⟩
  refine (agree_collect registry noneYet (matched definitions collected)).bind
    fun found found' holds ran _ => ?_
  obtain rfl := collected found ran
  have sameSize : found'.definitions.size = found.definitions.size := by
    simpa [Table.keys, Table.size] using congrArg List.length holds.1.keys
  rw [sameSize]
  exact agree_expandStmts holds.1 defines _ [] holds.2

end Definition

/-! ## Wildcards -/

namespace Wildcard

variable {swap : Expr → Expr → Prop} {base base' : Ident} (registry : Registry)

theorem agree_suffixes (bases : base.Matches slack base') {loc loc' : Option Location}
    (placed : slack.places loc loc') :
    slack.Agree (Forall₂ (Expr.Same slack)) (suffixes registry base loc)
      (suffixes registry base' loc') := by
  rw [suffixes, suffixes, bases.1]
  cases registry.family? base.name with
  | none => exact .refuse placed
  | some family =>
    refine forall₂_map_left_iff.mpr (forall₂_map_right_iff.mpr ?_)
    exact forall₂_same.mpr fun suffix _ => .atom (.ident ⟨rfl, placed⟩ placed)

theorem agree_expandElements (bases : base.Matches slack base') {values values' : List Expr}
    (each : Forall₂ (fun e e' => e.Same slack e' ∧
      slack.AgreeSame (expand registry e) (expand registry e'))
      values values') :
    slack.Agree (slack.Revisions (Forall₂ (Expr.Same slack)))
      (expandElements registry base values) (expandElements registry base' values') := by
  induction each with
  | nil => exact ⟨.nil, .inr rfl⟩
  | @cons e e' rest rest' first _ ih =>
    obtain ⟨same, expanded⟩ := first
    have single (noWildcard : e.isWildcard = false) (noWildcard' : e'.isWildcard = false) :
        slack.Agree (slack.Revisions (Forall₂ (Expr.Same slack)))
          (expandElements registry base (e :: rest))
          (expandElements registry base' (e' :: rest')) := by
      rw [expandElements_cons base noWildcard, expandElements_cons base' noWildcard']
      refine expanded.bind fun r r' revised _ _ => ih.bind fun others others' more _ _ => ?_
      exact revised.map₂ more .cons
    cases same with
    | atom atoms =>
      cases atoms with
      | wildcard placed =>
        refine (agree_suffixes registry bases placed).bind fun all all' here _ _ => ?_
        exact ih.bind fun others others' more _ _ => ⟨rel_append here more.1, .inr rfl⟩
      | _ => exact single rfl rfl
    | _ => exact single rfl rfl

theorem agree_expandRigid {rigid operand : Bool} {e e' : Expr}
    (matched : Expr.Matches slack swap rigid operand e e') (isRigid : rigid = true) :
    slack.AgreeSame (expand registry e) (expand registry e') ∧
      ∀ {base base' : Ident}, base.Matches slack base' →
        slack.AgreeSame (expandKey registry base e)
          (expandKey registry base' e') := by
  have single {e e' : Expr} (noList : e.isList = false) (noList' : e'.isList = false)
      (noWildcard : e.isWildcard = false) (noWildcard' : e'.isWildcard = false)
      (agree : slack.AgreeSame (expand registry e)
        (expand registry e')) :
      slack.AgreeSame (expand registry e) (expand registry e') ∧
        ∀ {base base' : Ident}, base.Matches slack base' →
          slack.AgreeSame (expandKey registry base e)
            (expandKey registry base' e') := by
    refine ⟨agree, fun _ => ?_⟩
    rwa [expandKey_of_single _ noWildcard noList, expandKey_of_single _ noWildcard' noList']
  induction matched with
  | swapped _ _ => exact absurd isRigid Bool.false_ne_true
  | @atom _ _ e e' atoms =>
    have kept : e.Same slack e' := .atom atoms
    cases atoms with
    | wildcard placed =>
      refine ⟨.refuse placed, fun bases => ?_⟩
      refine (agree_suffixes registry bases placed).bind fun values values' same _ _ => ?_
      exact ⟨.ofList same placed, .inr rfl⟩
    | _ => exact ⟨⟨kept, .inr rfl⟩, fun _ => ⟨kept, .inr rfl⟩⟩
  | subscript bases _ placed ih =>
    refine single rfl rfl rfl rfl (((ih rfl).2 bases).bind fun key key' revised _ _ => ?_)
    exact revised.map fun keys => .subscript bases keys placed
  | list fold length parts placed ih =>
    have each := forall₂_iff_zip.mpr ⟨length, fun part => (ih part isRigid).1⟩
    have both := forall₂_iff_zip.mpr ⟨length, fun part =>
      And.intro ((isRigid ▸ parts part :) : Expr.Matches slack swap true false _ _).same
        (ih part isRigid).1⟩
    refine ⟨?_, fun bases => ?_⟩
    · rw [expand, expand, expandAll_eq_reviseList, expandAll_eq_reviseList]
      refine (agree_reviseList each).bind fun values values' revised _ _ => ?_
      exact revised.map fun parts => .ofList parts placed
    · refine (agree_expandElements registry bases both).bind fun values values' revised _ _ => ?_
      exact revised.map fun parts => .ofList parts placed
  | compound operator length parts placed ih =>
    have each := forall₂_iff_zip.mpr ⟨length, fun part => (ih part isRigid).1⟩
    refine single rfl rfl rfl rfl ?_
    rw [expand, expand, expandAll_eq_reviseList, expandAll_eq_reviseList]
    refine (agree_reviseList each).bind fun args args' revised _ _ => ?_
    exact revised.map fun parts => .ofCompound parts placed

/-- The expression satisfies `granted` once its wildcards are expanded. -/
def GrantedLater (granted : Expr → Prop) (e : Expr) : Prop :=
  ∀ found, expand registry e = .ok found → granted found.value

theorem descends_expand : Descends (expand registry) where
  list values fold loc := by rw [expand, expandAll_eq_reviseList]
  compound operator args loc := by rw [expand, expandAll_eq_reviseList]

theorem agree_expand {granted : Expr → Prop} :
    slack.StepsAgree False (GrantedLater registry granted) granted (expand registry)
      (expand registry) where
  descends := descends_expand registry
  descends' := descends_expand registry
  written _ _ _ _ _ _ := rfl
  lowered _ _ := rfl
  grants grants ran := grants _ ran
  subscript bases keys placed _ := by
    refine ((agree_expandRigid registry keys rfl).2 bases).bind fun key key' revised _ _ => ?_
    exact revised.map fun keys => .subscript bases keys.matches placed
  atom {rigid e e'} _ atoms := by
    have kept : Expr.Fits slack granted rigid false e e' := .atom atoms
    cases atoms with
    | wildcard placed => exact .refuse placed
    | _ => exact ⟨kept, .inr rfl⟩

theorem agree_lower {granted : Expr → Prop} {defines : Stmt → Stmt → Prop}
    (matched : Forall₂ (Stmt.Accords slack (GrantedLater registry granted) defines)
      program program') :
    slack.Agree (Forall₂ (Stmt.Accords slack granted defines)) (lower registry program)
      (lower registry program') :=
  agree_lowerEach matched fun first =>
    agree_reviseStmt (fun same => (agree_expandRigid registry same rfl).1) (agree_expand registry)
      first

end Wildcard

/-! ## Placeholders -/

namespace Placeholder

theorem agree_fill {key key' : Option Ident} (keys : Option.Rel (Ident.Matches slack) key key') :
    slack.StepsAgree True Expr.Anything Expr.Anything (fill key) (fill key') where
  descends := descends_revise (fun _ _ _ => rfl) fun _ _ _ => rfl
  descends' := descends_revise (fun _ _ _ => rfl) fun _ _ _ => rfl
  written _ _ _ _ _ _ := rfl
  lowered _ _ := rfl
  grants _ _ := trivial
  subscript bases _ placed inside :=
    (inside trivial).bind fun _ _ revised _ _ =>
      revised.map fun keys => .subscript bases keys placed
  atom {rigid e e'} _ atoms := by
    have kept : Expr.Fits slack Expr.Anything rigid false e e' := .atom atoms
    cases atoms with
    | placeholder placed =>
      cases keys with
      | none => exact .refuse placed
      | some words => exact ⟨.atom (.ident words placed), .inr rfl⟩
    | _ => exact ⟨kept, .inr rfl⟩

theorem agree_reject {e e' : Expr} {post : Revised Expr → Revised Expr → Prop}
    (filled : slack.Agree post (fill none e) (fill none e')) :
    slack.Agree (fun _ _ => True) (reject e) (reject e') := by
  unfold reject
  generalize fill none e = filling at filled
  generalize fill none e' = filling' at filled
  cases filling <;> cases filling' <;> first | exact trivial | exact filled

theorem keyOf?_matches {target target' : Expr} (same : target.Same slack target') :
    Option.Rel (Ident.Matches slack) (keyOf? target) (keyOf? target') := by
  cases same with
  | subscript bases keys placed =>
    cases keys with
    | atom atoms =>
      cases atoms with
      | ident words _ => exact .some words
      | _ => exact .none
    | _ => exact .none
  | atom atoms => cases atoms <;> exact .none
  | _ => exact .none

theorem agree_lower {defines : Stmt → Stmt → Prop}
    (matched : Forall₂ (Stmt.Accords slack Expr.Anything defines) program program') :
    slack.Agree (Forall₂ (Stmt.Accords slack Expr.Anything defines)) (lower program)
      (lower program') := by
  refine agree_lowerEach matched fun {s s'} first => ?_
  have handedOn : Forall₂ (Stmt.Accords slack Expr.Anything defines) [s] [s'] :=
    .cons first .nil
  cases first with
  | assign targets values conditions tags =>
    have noKey : Option.Rel (Ident.Matches slack) none none := .none
    have fills := agree_fill (keyOf?_matches targets)
    refine (agree_reject ((agree_fill noKey).expr (fun _ => trivial) targets.matches)).bind
      fun _ _ _ _ _ => ?_
    refine (fills.root values).bind fun value value' valueFilled _ _ => ?_
    refine (agree_reviseOption conditions fills.root).bind fun own own' ownFilled _ _ => ?_
    exact .cons (matches_ofParts ⟨targets, .inr rfl⟩ valueFilled ownFilled tags) .nil
  | openBlock blocks tags =>
    refine (agree_reject ((agree_fill .none).root blocks)).bind fun _ _ _ _ _ => ?_
    exact handedOn
  | _ => exact handedOn

end Placeholder

end AutomationScript
