import AutomationScript.Proofs.Pipeline.Safety

/-!
# What a document holds

A document is filled statement by statement.  `Document.Reads` says at once what it holds: the last
value of each setting, all its rules in order, and the triggers numbered by their places.
-/

namespace AutomationScript

open List

/-! ## Assignments and triggers of a program -/

def Expr.isEval : Expr → Bool
  | .eval _ _ => true
  | _ => false

/-- An assignment to the setting with a given id. -/
structure Assignment where
  name : String
  value : Expr
  condition : Option Expr

/-- Whether an assignment sets a value: it has no condition, and its value is no text for the
runtime. -/
def Assignment.setsValue (a : Assignment) : Bool :=
  a.condition.isNone && !a.value.isEval

/-- The assignment that a statement is, if it is one to an id. -/
def Stmt.assignment? : Stmt → Option Assignment
  | .assign target value condition _ => target.name?.map (⟨·, value, condition⟩)
  | _ => none

/-- What a statement waits for and what it does, if it is a trigger with one action. -/
def Stmt.firing? : Stmt → Option (TriggerArg × TriggerArg)
  | .trigger condition [action] _ => some (condition, action)
  | _ => none

/-- The assignments that set values, in order. -/
def settingsOf (program : List Stmt) : List Assignment :=
  (program.filterMap Stmt.assignment?).filter Assignment.setsValue

/-- The assignments that give rules, in order. -/
def overridesOf (program : List Stmt) : List Assignment :=
  (program.filterMap Stmt.assignment?).filter fun a => !a.setsValue

/-- What the triggers of a program wait for and what they do, in order. -/
def firingsOf (program : List Stmt) : List (TriggerArg × TriggerArg) :=
  program.filterMap Stmt.firing?

/-- The assignments to one setting. -/
def assignmentsTo (name : String) (assignments : List Assignment) : List Assignment :=
  assignments.filter fun a => a.name = name

/-- The count of a trigger's condition or action as an integer of the runtime. -/
def TriggerArg.times (arg : TriggerArg) : Int :=
  match arg.count with
  | some (.number value _) => value.toInt64
  | _ => 0

/-- The trigger at a place of a document. -/
def Trigger.ofFiring (place : Nat) (firing : TriggerArg × TriggerArg) : Trigger where
  seq := place
  priority := place
  requirementType := firing.1.kind.name
  requirementId := firing.1.id.name
  requirementCount := firing.1.times
  actionType := firing.2.kind.name
  actionId := firing.2.id.name
  actionCount := firing.2.times
  complete := false

section Append

variable (name : String) (front back : List Stmt)

@[simp]
theorem settingsOf_append : settingsOf (front ++ back) = settingsOf front ++ settingsOf back := by
  simp [settingsOf]

@[simp]
theorem overridesOf_append :
    overridesOf (front ++ back) = overridesOf front ++ overridesOf back := by
  simp [overridesOf]

@[simp]
theorem firingsOf_append : firingsOf (front ++ back) = firingsOf front ++ firingsOf back :=
  filterMap_append

@[simp]
theorem assignmentsTo_append (first second : List Assignment) :
    assignmentsTo name (first ++ second) = assignmentsTo name first ++ assignmentsTo name second :=
  filter_append first second

theorem assignmentsTo_singleton (a : Assignment) :
    assignmentsTo name [a] = if name = a.name then [a] else [] := by
  by_cases same : name = a.name
  · simp [assignmentsTo, same]
  · simp [assignmentsTo, same, Ne.symm same]

end Append

/-! ## The contents of a document -/

/-- The document holds what the program says. -/
structure Document.Reads (program : List Stmt) (d : Document) : Prop where
  /-- Settings with a value stand in the order of the first assignments that set one. -/
  settingNames : d.settings.keys = ((settingsOf program).map Assignment.name).eraseDups
  /-- The value of a setting is the one that was set last. -/
  settings : ∀ name constant, d.settings.get? name = some constant ↔
    ∃ last, (assignmentsTo name (settingsOf program)).getLast? = some last ∧
      Emit.constant last.value = .ok constant
  /-- Settings with rules stand in the order of the first assignments that give one. -/
  overrideNames : d.overrides.keys = ((overridesOf program).map Assignment.name).eraseDups
  /-- A setting has the rules of all assignments that give one, in order. -/
  overrides : ∀ name rules, d.overrides.get? name = some rules ↔
    assignmentsTo name (overridesOf program) ≠ [] ∧
      Forall₂ (fun a rule => Emit.ruleOf a.value a.condition = .ok rule)
        (assignmentsTo name (overridesOf program)) rules
  /-- Triggers stand in the order of the program. -/
  triggers : d.triggers = (firingsOf program).mapIdx Trigger.ofFiring

theorem Table.keys_insert_of_eq {α : Type} {t : Table α} {names : List String}
    (isKeys : t.keys = names.eraseDups) (name : String) (value : α) :
    (t.insert name value).keys = (names ++ [name]).eraseDups := by
  rw [keys_insert, eraseDups_append, isKeys]
  by_cases taken : name ∈ names
  · rw [if_pos (mem_eraseDups.mpr taken)]
    simp [List.removeAll, taken]
  · rw [if_neg (mt mem_eraseDups.mp taken)]
    simp [List.removeAll, taken, eraseDups_cons]

theorem Emit.count_eq_ok_iff {arg : TriggerArg} {n : Int} :
    count arg = .ok n ↔ n = arg.times ∧ ∃ value loc, arg.count = some (.number value loc) := by
  rw [count, TriggerArg.times]
  cases given : arg.count with
  | none =>
    constructor
    · intro impossible
      cases impossible
    · rintro ⟨_, _, _, impossible⟩
      cases impossible
  | some e =>
    cases e with
    | number value loc =>
      constructor
      · rintro ⟨⟩
        exact ⟨rfl, value, loc, rfl⟩
      · rintro ⟨rfl, _⟩
        rfl
    | _ =>
      constructor
      · intro impossible
        cases impossible
      · rintro ⟨_, _, _, impossible⟩
        cases impossible

/-- What one statement adds to a document: a value, a rule or a trigger. -/
theorem Emit.statement_adds {d d' : Document} {s : Stmt} (emitted : statement d s = .ok d') :
    (∃ a, s.assignment? = some a ∧ s.firing? = none ∧
      ((a.setsValue = true ∧ ∃ ret, constant a.value = .ok ret ∧ d' = d.setValue a.name ret) ∨
        (a.setsValue = false ∧ ∃ rule, ruleOf a.value a.condition = .ok rule ∧
          d' = d.addRule a.name rule))) ∨
      ∃ firing, s.assignment? = none ∧ s.firing? = some firing ∧
        d' = d.addTrigger (Trigger.ofFiring · firing) := by
  rcases statement_cases emitted with
    ⟨target, value, condition, tag, name, rfl, named, emitted⟩ |
    ⟨condition, action, tag, rfl, emitted⟩
  · refine .inl ⟨⟨name, value, condition⟩, by rw [Stmt.assignment?, named]; rfl, rfl, ?_⟩
    rcases assignment_cases emitted with
      ⟨rule, rfl, overriding, stated⟩ | ⟨ret, rfl, rfl, fixed, stated⟩
    · refine .inr ⟨?_, rule, stated, rfl⟩
      cases condition with
      | some condition => rfl
      | none =>
        cases value with
        | eval text loc => rfl
        | _ => cases stated
    · refine .inl ⟨?_, ret, stated, rfl⟩
      cases value with
      | eval text loc => cases fixed
      | _ => rfl
  · obtain ⟨requirementCount, requirement, continued⟩ := bind_eq_ok_iff.mp emitted
    obtain ⟨actionCount, times, rfl⟩ := bind_pure_eq_ok_iff.mp continued
    rw [(count_eq_ok_iff.mp requirement).1, (count_eq_ok_iff.mp times).1]
    exact .inr ⟨(condition, action), rfl, rfl, rfl⟩

namespace Document.Reads

variable {program : List Stmt} {d : Document} {s : Stmt} {a : Assignment}

theorem empty : Reads [] .empty where
  settingNames := rfl
  settings name constant := by
    simp [settingsOf, assignmentsTo, Document.empty, Table.get?, Table.empty]
  overrideNames := rfl
  overrides name rules := by
    simp [overridesOf, assignmentsTo, Document.empty, Table.get?, Table.empty]
  triggers := rfl

theorem setValue (reads : d.Reads program) (assigns : s.assignment? = some a)
    (quiet : s.firing? = none) (sets : a.setsValue = true) {ret : Constant}
    (stated : Emit.constant a.value = .ok ret) :
    (d.setValue a.name ret).Reads (program ++ [s]) := by
  have value : settingsOf [s] = [a] := by
    simp [settingsOf, assigns, sets]
  have noRule : overridesOf [s] = [] := by
    simp [overridesOf, assigns, sets]
  have noFiring : firingsOf [s] = [] := by
    simp [firingsOf, quiet]
  constructor
  · rw [settingsOf_append, value, map_append]
    exact Table.keys_insert_of_eq reads.settingNames a.name ret
  · intro name constant
    rw [settingsOf_append, value, assignmentsTo_append, assignmentsTo_singleton,
      Document.setValue, Table.get?_insert]
    by_cases same : name = a.name
    · rw [if_pos same, if_pos same, getLast?_append]
      simp [stated, eq_comm]
    · rw [if_neg same, if_neg same, append_nil]
      exact reads.settings name constant
  · rw [overridesOf_append, noRule, append_nil]
    exact reads.overrideNames
  · rw [overridesOf_append, noRule, append_nil]
    exact reads.overrides
  · rw [firingsOf_append, noFiring, append_nil]
    exact reads.triggers

theorem forall₂_rulesFor (reads : d.Reads program) (name : String) :
    Forall₂ (fun a rule => Emit.ruleOf a.value a.condition = .ok rule)
      (assignmentsTo name (overridesOf program)) (d.rulesFor name) := by
  rw [rulesFor]
  cases found : d.overrides.get? name with
  | some rules => exact ((reads.overrides name rules).mp found).2
  | none =>
    have absent : name ∉ (overridesOf program).map Assignment.name := by
      rw [← mem_eraseDups, ← reads.overrideNames]
      exact Table.get?_eq_none_iff.mp found
    have noAssignments : assignmentsTo name (overridesOf program) = [] := by
      refine filter_eq_nil_iff.mpr fun a member same => absent ?_
      exact mem_map.mpr ⟨a, member, of_decide_eq_true same⟩
    rw [noAssignments]
    exact .nil

theorem addRule (reads : d.Reads program) (assigns : s.assignment? = some a)
    (quiet : s.firing? = none) (overriding : a.setsValue = false) {rule : Rule}
    (stated : Emit.ruleOf a.value a.condition = .ok rule) :
    (d.addRule a.name rule).Reads (program ++ [s]) := by
  have noValue : settingsOf [s] = [] := by
    simp [settingsOf, assigns, overriding]
  have ruled : overridesOf [s] = [a] := by
    simp [overridesOf, assigns, overriding]
  have noFiring : firingsOf [s] = [] := by
    simp [firingsOf, quiet]
  constructor
  · rw [settingsOf_append, noValue, append_nil]
    exact reads.settingNames
  · rw [settingsOf_append, noValue, append_nil]
    exact reads.settings
  · rw [overridesOf_append, ruled, map_append]
    exact Table.keys_insert_of_eq reads.overrideNames a.name _
  · intro name rules
    rw [overridesOf_append, ruled, assignmentsTo_append, assignmentsTo_singleton,
      Document.addRule, Table.get?_insert]
    by_cases same : name = a.name
    · subst same
      rw [if_pos rfl, if_pos rfl]
      have longer : Forall₂ (fun a rule => Emit.ruleOf a.value a.condition = .ok rule)
          (assignmentsTo a.name (overridesOf program) ++ [a]) (d.rulesFor a.name ++ [rule]) :=
        rel_append (reads.forall₂_rulesFor a.name) (.cons stated .nil)
      constructor
      · rintro ⟨⟩
        exact ⟨by simp, longer⟩
      · rintro ⟨_, rulesOf⟩
        -- An assignment gives one rule only, so the rules are those of the longer list.
        have unique : rules = d.rulesFor a.name ++ [rule] := by
          refine right_unique_forall₂' ?_ rulesOf longer
          intro assignment first second isFirst isSecond
          exact Except.ok.inj (isFirst.symm.trans isSecond)
        rw [unique]
        rfl
    · rw [if_neg same, if_neg same, append_nil]
      exact reads.overrides name rules
  · rw [firingsOf_append, noFiring, append_nil]
    exact reads.triggers

theorem addTrigger (reads : d.Reads program) {firing : TriggerArg × TriggerArg}
    (noAssignment : s.assignment? = none) (fires : s.firing? = some firing) :
    (d.addTrigger (Trigger.ofFiring · firing)).Reads (program ++ [s]) := by
  have noValue : settingsOf [s] = [] := by
    simp [settingsOf, noAssignment]
  have noRule : overridesOf [s] = [] := by
    simp [overridesOf, noAssignment]
  have fired : firingsOf [s] = [firing] := by
    simp [firingsOf, fires]
  constructor
  · rw [settingsOf_append, noValue, append_nil]
    exact reads.settingNames
  · rw [settingsOf_append, noValue, append_nil]
    exact reads.settings
  · rw [overridesOf_append, noRule, append_nil]
    exact reads.overrideNames
  · rw [overridesOf_append, noRule, append_nil]
    exact reads.overrides
  · rw [firingsOf_append, fired, mapIdx_append, ← reads.triggers, Document.addTrigger,
      reads.triggers]
    simp

/-- One more statement is read as the statements before it. -/
theorem statement (reads : d.Reads program) {d' : Document}
    (emitted : Emit.statement d s = .ok d') : d'.Reads (program ++ [s]) := by
  rcases Emit.statement_adds emitted with ⟨a, assigns, quiet, added⟩ | ⟨firing, no, fires, rfl⟩
  · rcases added with ⟨sets, ret, stated, rfl⟩ | ⟨overriding, rule, stated, rfl⟩
    · exact reads.setValue assigns quiet sets stated
    · exact reads.addRule assigns quiet overriding stated
  · exact reads.addTrigger no fires

end Document.Reads

theorem reads_of_emit {program : List Stmt} {document : Document}
    (emitted : emit program = .ok document) : document.Reads program := by
  induction program using List.reverseRecOn generalizing document with
  | nil =>
    cases emitted
    exact .empty
  | append_singleton front s ih =>
    rw [emit, Emit.statements_append] at emitted
    obtain ⟨before, frontEmitted, last⟩ := bind_eq_ok_iff.mp emitted
    obtain ⟨after, stated, finished⟩ := bind_eq_ok_iff.mp last
    cases finished
    exact (ih frontEmitted).statement stated

namespace Document.Reads

variable {program : List Stmt} {d : Document}

theorem contains_settings_iff (reads : d.Reads program) (name : String) :
    d.settings.contains name = true ↔ ∃ a ∈ settingsOf program, a.name = name := by
  rw [Table.contains, contains_iff_mem, reads.settingNames, mem_eraseDups, mem_map]

theorem contains_overrides_iff (reads : d.Reads program) (name : String) :
    d.overrides.contains name = true ↔ ∃ a ∈ overridesOf program, a.name = name := by
  rw [Table.contains, contains_iff_mem, reads.overrideNames, mem_eraseDups, mem_map]

end Document.Reads

/-- A program of final statements has a document, and the document holds what the program says.  A
setting has an entry if and only if there is an assignment that gives it one.  The lowered program
of every script is such a program. -/
theorem exists_document_reads
    {reference : Ident → Expr → Prop} (keysNamed : Expr.KeysNamed reference)
    {program : List Stmt} (final : ∀ s ∈ program, s.IsFinal reference) :
    (∃ document, emit program = .ok document ∧ document.Reads program ∧
      ∀ name,
        (document.settings.contains name = true ↔ ∃ a ∈ settingsOf program, a.name = name) ∧
        (document.overrides.contains name = true ↔ ∃ a ∈ overridesOf program, a.name = name)) ∧
      ∀ registry source parsed lowered, parse source = (parsed, []) →
        lowerProgram registry parsed = .ok lowered →
        Expr.KeysNamed (Families.Reference registry) ∧
          ∀ s ∈ lowered, s.IsFinal (Families.Reference registry) := by
  constructor
  · obtain ⟨document, emitted⟩ := Emit.exists_statements keysNamed final .empty
    have reads := reads_of_emit emitted
    exact ⟨document, emitted, reads, fun name =>
      ⟨reads.contains_settings_iff name, reads.contains_overrides_iff name⟩⟩
  · intro registry source parsed lowered read ran
    have input := input_of_parse registry read
    exact ⟨keysNamed_reference registry, isFinal_of_lowerProgram input ran⟩

/-- Values and rules for one setting in turns, with a trigger between them. -/
def valuesInTurns : List Stmt :=
  let setting (name : String) : Expr := .ident ⟨name, none⟩ none
  let reference (key : String) : Expr := .subscript ⟨"Researched", none⟩ (setting key) none
  let times (n : Int) : Option Expr := some (.number (.ofInt n) none)
  [.assign (setting "autoCraft") (.boolean true none) none default,
    .assign (setting "autoBuild") (.eval "trades > 3" none) none default,
    .assign (setting "autoCraft") (.boolean false none)
      (some (.compound .and [reference "tech-mad", .eval "calm" none] none)) default,
    .trigger ⟨⟨"built", none⟩, ⟨"city-farm", none⟩, times 3, none⟩
      [⟨⟨"build", none⟩, ⟨"city-mill", none⟩, times 1, none⟩] default,
    .assign (setting "autoBuild") (.boolean true none) none default,
    .assign (setting "autoCraft") (.number (.ofInt 5) none) none default]

theorem exists_document_reads_valuesInTurns :
    ∃ document, emit valuesInTurns = .ok document ∧ document.Reads valuesInTurns ∧
      document.settings.entries = [("autoCraft", .integer 5), ("autoBuild", .boolean true)] ∧
      document.overrides.keys = ["autoBuild", "autoCraft"] := by
  have final : ∀ s ∈ valuesInTurns, s.IsFinal fun _ key => ∃ word loc, key = .ident word loc := by
    refine List.forall_mem_cons.mpr ⟨?_, List.forall_mem_cons.mpr ⟨?_, List.forall_mem_cons.mpr
      ⟨?_, List.forall_mem_cons.mpr ⟨?_, List.forall_mem_cons.mpr ⟨?_, List.forall_mem_singleton.mpr
        ?_⟩⟩⟩⟩⟩
    · exact .assign _ _ _ _ ⟨⟨_, _, rfl⟩, .boolean true none, by simp⟩
    · exact .assign _ _ _ _ ⟨⟨_, _, rfl⟩, .eval "trades > 3" none, by simp⟩
    · refine .assign _ _ _ _ ⟨⟨_, _, rfl⟩, .boolean false none, ?_⟩
      rintro condition ⟨⟩
      refine ⟨.compound .and _ none rfl (List.forall_mem_cons.mpr
        ⟨?_, List.forall_mem_singleton.mpr ?_⟩), by rintro operator args loc ⟨⟩; rfl⟩
      · exact .subscript _ _ none (by decide) ⟨_, _, rfl⟩
      · exact .stated _ (.eval "calm" none)
    · exact .trigger _ _ _ ⟨⟨_, _, rfl⟩, _, rfl, _, _, rfl⟩
    · exact .assign _ _ _ _ ⟨⟨_, _, rfl⟩, .boolean true none, by simp⟩
    · exact .assign _ _ _ _ ⟨⟨_, _, rfl⟩, .number (.ofInt 5) none, by simp⟩
  obtain ⟨⟨document, emitted, reads, _⟩, _⟩ :=
    exists_document_reads (fun _ _ named => named) final
  have contents : (emit valuesInTurns).map
      (fun document => (document.settings.entries, document.overrides.keys)) = .ok
        ([("autoCraft", .integer 5), ("autoBuild", .boolean true)], ["autoBuild", "autoCraft"]) := by
    decide +kernel
  rw [emitted] at contents
  obtain ⟨isSettings, isOverrides⟩ := Prod.mk.inj (Except.ok.inj contents)
  exact ⟨document, emitted, reads, isSettings, isOverrides⟩

end AutomationScript
