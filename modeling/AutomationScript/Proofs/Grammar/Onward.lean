import AutomationScript.Proofs.Grammar.Derivations

/-!
# Parsers go on

No parser goes back, skips the end of the input or takes back an error, whether it succeeds or
fails.  So a run that ends without errors had none at any point.  A statement that is read takes
tokens (`Consumes`).
-/

namespace AutomationScript

open List AutomationScript.Reader AutomationScript.Parser

instance : Cursor Session :=
  ⟨Session.tokens, fun session => session.errors.map Diagnostic.message⟩

/-- The second state is the first one or comes after it. -/
structure Onward {σ : Type} [Cursor σ] (s s' : σ) : Prop where
  later : Cursor.tokens s' <:+ Cursor.tokens s
  ends : EndsInput (Cursor.tokens s) → EndsInput (Cursor.tokens s')
  reported : Cursor.messages s <+: Cursor.messages s'

/-- The computation goes on from wherever it starts. -/
class GoesOn {σ α : Type} [Cursor σ] (x : EStateM Diagnostic σ α) : Prop where
  onward : ∀ s, Onward s (stateOf (x s))

/-- The computation goes on, and takes tokens if it succeeds before the end of the input. -/
class Consumes {σ α : Type} [Cursor σ] (x : EStateM Diagnostic σ α) : Prop extends GoesOn x where
  fewer : ∀ {s a s'}, EndsInput (Cursor.tokens s) → headToken (Cursor.tokens s) ≠ .eof →
    x s = .ok a s' → (Cursor.tokens s').length < (Cursor.tokens s).length

instance {σ α : Type} [Cursor σ] (x : EStateM Diagnostic σ α) [goesOn : GoesOn x] : Reports x :=
  ⟨fun s reported none => reported (prefix_nil.mp (none ▸ (goesOn.onward s).reported))⟩

section Steps

variable {σ α β : Type} [Cursor σ] {x y : EStateM Diagnostic σ α} {a : α} {s s' s'' : σ}
  {next : α → EStateM Diagnostic σ β}

theorem Onward.refl (s : σ) : Onward s s :=
  ⟨suffix_refl _, id, prefix_refl _⟩

theorem Onward.trans (first : Onward s s') (second : Onward s' s'') : Onward s s'' :=
  ⟨second.later.trans first.later, second.ends ∘ first.ends, first.reported.trans second.reported⟩

theorem goesOn_bind [first : GoesOn x] (second : ∀ a, GoesOn (next a)) : GoesOn (x >>= next) := by
  refine ⟨fun s => ?_⟩
  have onward := first.onward s
  change Onward s (stateOf (EStateM.bind x next s))
  unfold EStateM.bind
  cases ran : x s with
  | ok a middle =>
    rw [ran] at onward
    exact onward.trans ((second a).onward middle)
  | error error middle =>
    rw [ran] at onward
    exact onward

instance [GoesOn x] [∀ a, GoesOn (next a)] : GoesOn (x >>= next) :=
  goesOn_bind inferInstance

theorem onward_of_run [goesOn : GoesOn x] (ran : x s = .ok a s') : Onward s s' := by
  have onward := goesOn.onward s
  rwa [ran] at onward

theorem onward_of_error [goesOn : GoesOn x] {d : Diagnostic} (failed : x s = .error d s') :
    Onward s s' := by
  have onward := goesOn.onward s
  rwa [failed] at onward

theorem consumes_bind [first : Consumes x] (second : ∀ a, GoesOn (next a)) :
    Consumes (x >>= next) := by
  refine ⟨fun ends goesOn ran => ?_⟩
  obtain ⟨a, middle, firstRan, rest⟩ := run_bind_eq_ok_iff.mp ran
  exact Nat.lt_of_le_of_lt (onward_of_run rest).later.length_le (first.fewer ends goesOn firstRan)

/-- A look ahead takes nothing. -/
theorem consumes_look [GoesOn x] (stays : ∀ {s a s'}, x s = .ok a s' → s' = s)
    (second : ∀ a, Consumes (next a)) : Consumes (x >>= next) := by
  refine ⟨fun ends goesOn ran => ?_⟩
  obtain ⟨a, middle, firstRan, rest⟩ := run_bind_eq_ok_iff.mp ran
  cases stays firstRan
  exact (second a).fewer ends goesOn rest

instance (a : α) : GoesOn (pure a : EStateM Diagnostic σ α) :=
  ⟨fun s => .refl s⟩

instance {c : Prop} [Decidable c] [GoesOn x] [GoesOn y] : GoesOn (if c then x else y) := by
  split <;> infer_instance

instance {f : α → β} [GoesOn x] : GoesOn (f <$> x) :=
  goesOn_bind fun _ => inferInstanceAs (GoesOn (pure _))

instance [GoesOn x] : GoesOn (discard x) :=
  goesOn_bind fun _ => inferInstanceAs (GoesOn (pure _))

instance : GoesOn (get : EStateM Diagnostic σ σ) :=
  ⟨fun s => .refl s⟩

end Steps

/-! ## Readers -/

namespace Reader

instance : GoesOn peek := inferInstanceAs (GoesOn (_ <$> _))
instance : GoesOn peekSecond := inferInstanceAs (GoesOn (_ <$> _))
instance : GoesOn here := inferInstanceAs (GoesOn (_ <$> _))

instance {α : Type} (error : GrammarError) (loc : Location) : GoesOn (fail error loc : Reader α) :=
  ⟨fun s => .refl s⟩

instance {α : Type} : GoesOn (unexpected : Reader α) := by
  unfold unexpected
  infer_instance

theorem onward_after (stream : List PlacedToken) : Onward stream (after stream) := by
  cases stream with
  | nil => exact .refl _
  | cons first rest =>
    cases rest with
    | nil => exact .refl _
    | cons next rest =>
      refine ⟨suffix_cons _ _, ?_, prefix_refl _⟩
      rintro ⟨front, loc, whole⟩
      cases front with
      | nil => cases whole
      | cons _ front => exact ⟨front, loc, (List.cons.inj whole).2⟩

instance : GoesOn advance := ⟨onward_after⟩

instance : Consumes advance := by
  refine ⟨fun {xs} _ _ ends goesOn ran => ?_⟩
  cases ran
  cases xs with
  | nil => exact absurd rfl ends.ne_nil
  | cons first rest =>
    rw [Reader.after_cons (ends.of_cons goesOn).ne_nil]
    exact Nat.lt_succ_self _

theorem onward_dropWhile
    (test : Token → Bool) (stays : test .eof = false) (stream : List PlacedToken) :
    Onward stream (stream.dropWhile fun placed => test placed.token) := by
  refine ⟨dropWhile_suffix _, ?_, prefix_refl _⟩
  rintro ⟨front, loc, whole⟩
  change stream = _ at whole
  subst whole
  induction front with
  | nil =>
    rw [nil_append, dropWhile_cons_of_neg (by simp [stays])]
    exact ⟨[], loc, rfl⟩
  | cons first front ih =>
    rw [cons_append, dropWhile_cons]
    split
    · exact ih
    · exact ⟨first :: front, loc, rfl⟩

instance : GoesOn skipTerminators := ⟨onward_dropWhile isTerminator rfl⟩

instance (closers : List Token) : GoesOn (skipTo closers) :=
  ⟨onward_dropWhile (fun t => !(isStop t || closers.contains t)) rfl⟩

instance (closers : List Token) : GoesOn (recover closers) := by
  unfold recover
  infer_instance

instance (opener : Token) : GoesOn (recoverHead opener) := by
  unfold recoverHead
  infer_instance

instance (wanted : Token) : GoesOn (expect wanted) := by
  unfold expect
  infer_instance

instance : Consumes expectIdent := by
  refine consumes_look (fun ran => by cases ran; rfl) fun token => ?_
  split
  · exact consumes_bind inferInstance
  · refine ⟨fun _ _ ran => ?_⟩
    cases ran

instance : GoesOn expectTerminator := by
  refine goesOn_bind fun token => ?_
  split <;> infer_instance

end Reader

namespace Grammar

section Operands

variable {operand : Reader Phrase} [GoesOn operand]

instance (operator? : Token → Option Operator) (fuel : Nat) (left : Phrase) :
    GoesOn (chain operand operator? fuel left) := by
  induction fuel generalizing left with
  | zero => exact inferInstanceAs (GoesOn (pure _))
  | succ fuel ih =>
    refine goesOn_bind fun token => ?_
    split <;> infer_instance

instance (operator? : Token → Option Operator) : GoesOn (level operator? operand) := by
  unfold level
  infer_instance

instance (fuel : Nat) : GoesOn (negations operand fuel) := by
  induction fuel with
  | zero => exact inferInstanceAs (GoesOn operand)
  | succ fuel ih =>
    unfold negations
    infer_instance

instance : GoesOn (sum operand) := by
  unfold sum product
  infer_instance

instance : GoesOn (disjunction operand) := by
  unfold disjunction negation comparison
  infer_instance

instance : GoesOn (element operand) := by
  refine goesOn_bind fun token => ?_
  split <;> infer_instance

instance (fuel : Nat) (body : ListBody) : GoesOn (elements operand fuel body) := by
  induction fuel generalizing body with
  | zero => exact inferInstanceAs (GoesOn (pure _))
  | succ fuel ih =>
    refine goesOn_bind fun value => goesOn_bind fun token => ?_
    dsimp only
    split <;> infer_instance

instance : GoesOn (bracketed operand) := by
  rw [bracketed_eq]
  refine goesOn_bind fun opening => goesOn_bind fun token => ?_
  dsimp only
  infer_instance

instance : GoesOn dottedKey := by
  refine goesOn_bind fun token => goesOn_bind fun loc => ?_
  split <;> infer_instance

instance : Consumes (reference operand) := by
  refine consumes_bind fun name => goesOn_bind fun token => ?_
  split <;> infer_instance

end Operands

instance (depth : Nat) : GoesOn (primary depth) := by
  induction depth with
  | zero => exact inferInstanceAs (GoesOn unexpected)
  | succ depth ih =>
    refine goesOn_bind fun loc => goesOn_bind fun token => ?_
    split
    case h_2 =>
      refine goesOn_bind fun second => ?_
      split <;> infer_instance
    all_goals infer_instance

instance : GoesOn expression := by
  unfold expression
  infer_instance

instance : Consumes target :=
  consumes_look (fun ran => by cases ran; rfl) inferInstance

instance : Consumes assignment := by
  refine consumes_bind fun target => goesOn_bind fun _ => ?_
  refine goesOn_bind fun value => goesOn_bind fun condition => ?_
  refine goesOn_bind fun _ => ?_
  split <;> infer_instance

instance : Consumes triggerArgument := by
  refine consumes_bind fun kind => goesOn_bind fun id => ?_
  refine goesOn_bind fun token => ?_
  dsimp only
  split
  · refine goesOn_bind fun _ => goesOn_bind fun count => ?_
    split <;> infer_instance
  · infer_instance

instance : Consumes inlineTrigger :=
  consumes_bind inferInstance

instance : Consumes useStatement :=
  consumes_bind inferInstance

instance : Consumes actionPart :=
  consumes_bind inferInstance

end Grammar

/-! ## Parsers -/

section Parsers

variable {α : Type} {x : Parser α}

instance (reader : Reader α) [goesOn : GoesOn reader] : GoesOn (liftM reader : Parser α) := by
  change GoesOn (liftReader reader)
  refine ⟨fun session => ?_⟩
  have onward := goesOn.onward session.tokens
  unfold liftReader
  cases ran : reader session.tokens <;> rw [ran] at onward <;>
    exact ⟨onward.later, onward.ends, prefix_refl _⟩

instance (reader : Reader α) [consumes : Consumes reader] : Consumes (liftM reader : Parser α) := by
  refine ⟨fun ends goesOn ran => ?_⟩
  obtain ⟨xs', readerRan, rfl⟩ := liftReader_eq_ok_iff.mp ran
  exact consumes.fewer ends goesOn readerRan

instance : GoesOn errorCount := inferInstanceAs (GoesOn (_ <$> _))

theorem onward_report (error : Diagnostic) (session : Session) :
    Onward session ⟨session.tokens, session.errors ++ [error]⟩ := by
  refine ⟨suffix_refl _, id, ?_⟩
  simp [Cursor.messages]

instance (error : Diagnostic) : GoesOn (report error) := ⟨onward_report error⟩

theorem messages_report_bind [Reports x] (error : Diagnostic) (session : Session) :
    Cursor.messages (stateOf ((report error >>= fun _ => x) session)) ≠ [] := by
  refine Reports.keeps (x := x) ⟨session.tokens, session.errors ++ [error]⟩ ?_
  simp [Cursor.messages]

instance [goesOn : GoesOn x] : GoesOn (attempt x) := by
  refine ⟨fun session => ?_⟩
  have onward := goesOn.onward session
  unfold attempt
  cases ran : x session <;> rw [ran] at onward <;> exact onward

instance {parser : Parser (List α)} [GoesOn parser] (closers : List Token) :
    GoesOn (orRecover parser closers) :=
  goesOn_bind fun tried => by cases tried <;> dsimp only <;> infer_instance

end Parsers

namespace Grammar

instance (fuel : Nat) : GoesOn (triggerActions fuel) := by
  induction fuel with
  | zero => exact inferInstanceAs (GoesOn (pure []))
  | succ fuel ih =>
    refine goesOn_bind fun _ => goesOn_bind fun token => ?_
    split <;> infer_instance

instance : Consumes triggerBlock := by
  refine consumes_look (fun ran => by cases ran; rfl) fun before => consumes_bind fun start => ?_
  refine goesOn_bind fun head => ?_
  cases head <;> dsimp only <;> infer_instance

variable {body : Parser (List Stmt)} [GoesOn body]

instance (condition : Expr) : GoesOn (elsePart body condition) := by
  unfold elsePart
  infer_instance

instance : GoesOn (brokenBlock body) := by
  refine goesOn_bind fun _ => goesOn_bind fun token => ?_
  dsimp only
  split <;> infer_instance

instance : Consumes (conditionBlock body) := by
  refine consumes_bind fun start => goesOn_bind fun head => ?_
  cases head <;> dsimp only <;> infer_instance

instance : Consumes (definition body) := by
  refine consumes_bind fun start => goesOn_bind fun name => ?_
  refine goesOn_bind fun token => ?_
  split <;> infer_instance

instance (topLevel : Bool) : Consumes (statement body topLevel) := by
  refine consumes_look (fun ran => by cases ran; rfl) fun token => ?_
  split
  · infer_instance
  · infer_instance
  · exact consumes_look (fun ran => by cases ran; rfl) fun start => consumes_bind inferInstance
  · exact consumes_bind inferInstance
  · refine consumes_look (fun ran => by cases ran; rfl) fun second => ?_
    split <;> exact consumes_bind inferInstance
  · refine ⟨fun _ _ ran => ?_⟩
    cases ran

instance (fuel : Nat) : GoesOn (programBody body fuel) := by
  induction fuel with
  | zero => exact inferInstanceAs (GoesOn (pure []))
  | succ fuel ih =>
    unfold programBody
    infer_instance

omit [GoesOn body]

instance (fuel : Nat) : GoesOn (blockBody fuel) := by
  induction fuel with
  | zero => exact inferInstanceAs (GoesOn (pure []))
  | succ fuel ih =>
    unfold blockBody
    infer_instance

end Grammar

end AutomationScript
