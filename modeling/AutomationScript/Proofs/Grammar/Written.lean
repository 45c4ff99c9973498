import AutomationScript.Proofs.Grammar.Concatenation
import AutomationScript.Proofs.Program.Balance

/-!
# What is read is written

What is known of the names and operators of a script that is read without errors is read off the
rules that form it (`composed_of_parse`).
-/

namespace AutomationScript

open List

variable {f : AutomationScript.Forms}

/-- All that can be written is among the forms. -/
structure Forms.Complete (f : Forms) : Prop where
  names : ∀ name, isIdentifier name = true → f.isName name
  wildcards : f.wildcards
  lists : f.lists
  placeholders : f.placeholders

/-! ## Wherever it stands -/

mutual

theorem Expr.written_of_unlocated : (e : Expr) → e.unlocated.Written f → e.Written f
  | .subscript base key loc, written => by
      rw [unlocated] at written
      generalize isKey : key.unlocated = bare at written
      cases written with
      | raw _ text _ _ isEval =>
        cases key <;> cases isKey
        exact .raw base _ _ loc isEval
      | subscript _ _ _ keyWritten =>
        exact .subscript base key loc (written_of_unlocated key (isKey ▸ keyWritten))
  | .list values fold loc, written => by
      rw [unlocated] at written
      cases written with
      | list _ _ _ listed each =>
        exact .list values fold loc listed (allWritten_of_unlocated values each)
  | .compound operator args loc, written => by
      rw [unlocated] at written
      cases written with
      | compound _ _ _ arity each =>
        refine .compound operator args loc ?_ (allWritten_of_unlocated args each)
        rwa [unlocatedAll_eq_map, length_map] at arity
  | .ident word loc, written => by
      cases written with
      | ident _ _ isName => exact .ident word loc isName
  | .wildcard loc, written => by
      cases written with
      | wildcard _ allowed => exact .wildcard loc allowed
  | .placeholder loc, written => by
      cases written with
      | placeholder _ allowed => exact .placeholder loc allowed
  | .string value loc, _ => .string value loc
  | .number value loc, _ => .number value loc
  | .boolean value loc, _ => .boolean value loc
  | .eval _ _, written => by cases written

theorem Expr.allWritten_of_unlocated :
    (values : List Expr) → (∀ value ∈ unlocatedAll values, value.Written f) →
      ∀ value ∈ values, value.Written f
  | [], _ => forall_mem_nil _
  | e :: rest, each => by
      rw [unlocatedAll] at each
      obtain ⟨first, others⟩ := forall_mem_cons.mp each
      exact forall_mem_cons.mpr
        ⟨written_of_unlocated e first, allWritten_of_unlocated rest others⟩

end

theorem Expr.target_of_unlocated {e : Expr} (isTarget : e.unlocated.Target f) : e.Target f := by
  cases e <;> cases isTarget
  · next isName => exact .ident _ _ isName
  · next keyWritten => exact .subscript _ _ _ (written_of_unlocated _ keyWritten)

theorem TriggerArg.written_of_unlocated {arg : TriggerArg} (written : arg.unlocated.Written) :
    arg.Written := by
  refine ⟨written.named, fun count isCount => ?_⟩
  have isBare : count.unlocated ∈ arg.unlocated.count := Option.mem_map_of_mem _ isCount
  obtain ⟨value, loc, same, positive⟩ := written.counted _ isBare
  cases count <;> cases same
  exact ⟨value, _, rfl, positive⟩

theorem Stmt.depthAfter_unlocated (s : Stmt) (depth : Nat) :
    s.unlocated.depthAfter depth = s.depthAfter depth := by
  cases s <;> rfl

theorem Composed.of_unlocated {fits fits' : Stmt → Prop} {program : List Stmt}
    (composed : Composed fits (program.map Stmt.unlocated))
    (each : ∀ s ∈ program, fits s.unlocated → fits' s) : Composed fits' program := by
  refine ⟨fun depth => ?_, fun s member => each s member ?_⟩
  · have same := composed.balanced depth
    rw [blockDepth, foldlM_map] at same
    simp only [Stmt.depthAfter_unlocated] at same
    exact same
  · exact composed.each _ (mem_map_of_mem member)

theorem Stmt.simple_of_unlocated {s : Stmt} (isSimple : s.unlocated.Simple f) : s.Simple f := by
  cases s with
  | use name tag => exact .use name tag
  | assign target value condition tag =>
    cases isSimple with
    | fits _ parts =>
      obtain ⟨isTarget, valueWritten, conditionWritten⟩ := parts
      refine .fits _ ⟨Expr.target_of_unlocated isTarget,
        Expr.written_of_unlocated value valueWritten, fun e isCondition => ?_⟩
      exact Expr.written_of_unlocated e
        (conditionWritten _ (Option.mem_map_of_mem _ isCondition))
  | openBlock condition tag =>
    cases isSimple with
    | fits _ written => exact .fits _ (Expr.written_of_unlocated condition written)
  | closeBlock tag => exact .fits _ True.intro
  | trigger condition actions tag =>
    cases isSimple with
    | fits _ parts =>
      refine .fits _ ⟨TriggerArg.written_of_unlocated parts.1, fun action member => ?_⟩
      exact TriggerArg.written_of_unlocated (parts.2 _ (mem_map_of_mem member))
  | defineExpr name body tag =>
    cases isSimple with
    | fits _ impossible => exact impossible.elim
  | defineBlock name body tag =>
    cases isSimple with
    | fits _ impossible => exact impossible.elim

theorem Stmt.parsed_of_unlocated {s : Stmt} (parsed : s.unlocated.Parsed f) : s.Parsed f := by
  generalize isBare : s.unlocated = bare at parsed
  cases parsed with
  | simple _ isSimple => exact .simple s (simple_of_unlocated (isBare ▸ isSimple))
  | defineExpr _ _ _ written =>
    cases s <;> cases isBare
    exact .defineExpr _ _ _ (Expr.written_of_unlocated _ written)
  | defineBlock _ _ _ composed =>
    cases s <;> cases isBare
    rw [unlocatedAll_eq_map] at composed
    exact .defineBlock _ _ _ (composed.of_unlocated fun _ _ => simple_of_unlocated)

/-! ## What the rules form -/

/-- The identifiers among the tokens are identifiers, and the numbers have no signs. -/
def AllNamed (tokens : List Token) : Prop :=
  ∀ token ∈ tokens, token.Named

theorem AllNamed.mono {tokens part : List Token} (named : AllNamed tokens)
    (isPart : part ⊆ tokens) : AllNamed part :=
  fun token member => named token (isPart member)

namespace Grammar

theorem Joins.ne_not {symbol : Symbol} {token : Token} {operator : Operator}
    (joins : Joins symbol token operator) : operator ≠ .not := by
  cases joins <;> exact nofun

variable (complete : f.Complete)

include complete

theorem Keyed.written {token : Token} {key : Expr} (keyed : Keyed token key) (named : token.Named) :
    key.Written f := by
  cases keyed with
  | name key => exact .ident _ _ (complete.names key named)
  | wildcard => exact .wildcard _ complete.wildcards
  | placeholder => exact .placeholder _ complete.placeholders

variable {tokens : List Token}

theorem Derives.written {symbol : Symbol} {e : Expr} (derives : Derives symbol tokens e)
    (named : AllNamed tokens) : e.Written f := by
  induction derives with
  | tighter _ _ ih => exact ih named
  | binary joins _ _ _ left right =>
    exact .binary joins.ne_not (left (named.mono (by simp))) (right (named.mono (by simp))) none
  | negated _ ih => exact .negation (ih (named.mono (by simp))) none
  | number value | negative value => exact .number _ none
  | string value => exact .string value none
  | on | off => exact .boolean _ none
  | eval text => exact .raw _ _ _ _ rfl
  | name name => exact .ident _ _ (complete.names name (named _ mem_cons_self))
  | dotted base keyed => exact .subscript _ _ _ (keyed.written complete (named _ (by simp)))
  | subscript base _ ih => exact .subscript _ _ _ (ih (named.mono (by simp)))
  | parenthesized _ ih | single _ ih => exact ih (named.mono (by simp))
  | @list items separators fold _ lengths _ _ _ ih =>
    refine .list _ _ _ complete.lists fun value member => ?_
    obtain ⟨item, isItem, rfl⟩ := mem_map.mp member
    have isElement : item.1 ∈ items.map Prod.fst := mem_map_of_mem isItem
    have inside := sublist_joined isElement (by simpa using lengths)
    exact ih item isItem (named.mono fun token inItem => by simp [inside.subset inItem])
  | wildcard => exact .wildcard _ complete.wildcards
  | placeholder => exact .placeholder _ complete.placeholders

theorem Derives.target {e : Expr} (derives : Derives .primary tokens e) {name : String}
    (starts : headOf tokens = .ident name) (named : AllNamed tokens) : e.Target f := by
  cases derives with
  | name name => exact .ident _ _ (complete.names name (named _ mem_cons_self))
  | dotted base keyed => exact .subscript _ _ _ (keyed.written complete (named _ (by simp)))
  | subscript base list => exact .subscript _ _ _ (list.written complete (named.mono (by simp)))
  | tighter isNext list =>
    cases isNext
    cases list with
    | binary joins => cases joins
    | tighter isNext => cases isNext
    | _ => cases starts
  | binary joins => cases joins
  | _ => cases starts

omit complete in
theorem Argument.written {arg : TriggerArg} (argument : Argument tokens arg)
    (named : AllNamed tokens) : arg.Written := by
  have ne_empty : ∀ id : String, .ident id ∈ tokens → id ≠ "" := by
    rintro _ isId rfl
    cases named _ isId
  cases argument with
  | once kind id => exact ⟨ne_empty id (by simp), fun _ none => by cases none⟩
  | counted kind id count =>
    refine ⟨ne_empty id (by simp), fun _ isCount => ?_⟩
    cases isCount
    exact ⟨count, none, rfl, named (.number count) (by simp)⟩

theorem Simple.isSimple {s : Stmt} (simple : Simple tokens s) (named : AllNamed tokens) :
    s.Simple f := by
  cases simple with
  | use name => exact .use _ _
  | trigger action condition =>
    refine .fits _ ⟨condition.written (named.mono (by simp)), ?_⟩
    exact forall_mem_singleton.mpr (action.written (named.mono (by simp)))
  | assign starts target value restricts =>
    refine .fits _ ⟨target.target complete starts (named.mono (by simp)),
      value.written complete (named.mono fun _ => by simp +contextual), fun e isCondition => ?_⟩
    cases restricts with
    | never => cases isCondition
    | condition derives =>
      cases isCondition
      exact derives.written complete (named.mono fun _ => by simp +contextual)

omit complete in
theorem written_of_listing {actions : List TriggerArg} (listing : Listing Action tokens actions)
    (named : AllNamed tokens) : ∀ action ∈ actions, action.Written := by
  have one : ∀ {tokens actions}, Action tokens actions → AllNamed tokens →
      ∀ action ∈ actions, action.Written := by
    rintro tokens _ ⟨action, rfl, argument⟩ named
    exact forall_mem_singleton.mpr (argument.written named)
  induction listing with
  | nil => exact forall_mem_nil _
  | skip _ _ ih => exact ih (named.mono (by simp))
  | last first => exact one first named
  | cons first _ _ ih =>
    exact forall_mem_append.mpr
      ⟨one first (named.mono (by simp)), ih (named.mono fun _ => by simp +contextual)⟩

/-- What is known of the statements in a role.  Those after `else` close the block around them and
open one in its place. -/
def Role.Composes (f : AutomationScript.Forms) (statements : List Stmt) : Role → Prop
  | .statement topLevel | .statements topLevel => Composed (Stmt.ParsedAt f topLevel) statements
  | .otherwise condition => condition.Written f →
      (∀ depth, blockDepth (depth + 1) statements = some (depth + 1)) ∧
        ∀ s ∈ statements, s.Simple f

theorem Forms.composes {role : Role} {statements : List Stmt}
    (forms : Forms role tokens statements) (named : AllNamed tokens) :
    role.Composes f statements := by
  have alone : ∀ {topLevel : Bool} {s : Stmt}, s.Simple f →
      (∀ depth, s.depthAfter depth = some depth) → Composed (Stmt.ParsedAt f topLevel) [s] :=
    fun isSimple noMark => Composed.singleton (isSimple.parsedAt _) noMark
  induction forms with
  | simple topLevel simple =>
    refine alone (simple.isSimple complete named) fun depth => ?_
    cases simple <;> rfl
  | triggerBlock topLevel waits does _ =>
    refine alone (.fits _ ⟨waits.written (named.mono fun _ => by simp +contextual), ?_⟩)
      fun _ => rfl
    exact written_of_listing does (named.mono fun _ => by simp +contextual)
  | conditionBlock topLevel head _ _ body other =>
    have written := head.written complete (named.mono fun _ => by simp +contextual)
    have composed := body (named.mono fun _ => by simp +contextual)
    obtain ⟨inside, simple⟩ := other (named.mono fun _ => by simp +contextual) written
    rw [← append_assoc]
    refine .block ?_ ?_ (fun depth => ?_) fun s member => ?_
    · exact Stmt.Simple.parsedAt (.fits (.openBlock _ _) written) topLevel
    · exact Stmt.Simple.parsedAt (.fits (.closeBlock _) True.intro) topLevel
    · rw [blockDepth_append, composed.balanced (depth + 1)]
      exact inside depth
    · have isSimple := (mem_append.mp member).elim (composed.each s) (simple s)
      exact isSimple.parsedAt topLevel
  | defineExpr name derives =>
    have written := derives.written complete (named.mono fun _ => by simp +contextual)
    exact Composed.singleton (.defineExpr _ _ _ written) fun _ => rfl
  | defineBlock name _ ih =>
    have composed := ih (named.mono fun _ => by simp +contextual)
    exact Composed.singleton (.defineBlock _ _ _ composed) fun _ => rfl
  | noOther condition => exact fun _ => ⟨fun _ => rfl, forall_mem_nil _⟩
  | other condition _ ih =>
    intro written
    have composed := ih (named.mono (by simp))
    refine ⟨fun depth => composed.balanced (depth + 1), ?_⟩
    exact forall_mem_cons.mpr ⟨.fits _ True.intro, forall_mem_cons.mpr
      ⟨.fits _ (Expr.Written.negation written none), composed.each⟩⟩
  | nil topLevel => exact Composed.nil
  | skip _ _ ih => exact ih (named.mono (by simp))
  | last _ ih => exact ih named
  | cons _ _ _ first more =>
    exact (first (named.mono (by simp))).append (more (named.mono fun _ => by simp +contextual))

end Grammar

theorem allNamed_tokensIn (source : String) : AllNamed (tokensIn source) := by
  intro token member
  rw [tokensIn] at member
  cases scanned : tokenize source with
  | error errors =>
    rw [scanned] at member
    cases member
  | ok lexemes =>
    rw [scanned] at member
    obtain ⟨lexeme, isLexeme, rfl⟩ := mem_map.mp ((dropLast_sublist _).mem member)
    exact named_tokenize scanned lexeme isLexeme

/-- What is read without errors is a program with its blocks in pairs and definitions at the top
only. -/
theorem composed_of_parse (complete : f.Complete) {source : String} {program : List Stmt}
    (parsed : parse source = (program, [])) : Composed (Stmt.Parsed f) program := by
  have composed := (forms_of_parse parsed).composes complete (allNamed_tokensIn source)
  exact composed.of_unlocated fun _ _ => Stmt.parsed_of_unlocated

end AutomationScript
