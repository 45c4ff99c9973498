import AutomationScript.Proofs.Grammar.Runs
import AutomationScript.Proofs.Program.Matching

/-!
# Reading the same tokens in two places

A reader never looks past the first line end, semicolon or end of input that it meets.  So what it
makes of the tokens before such a stop does not depend on what comes after, but for locations; only
a failure at the stop itself names the stop, and each place has its own.

`Splice` says which locations and which stops correspond, and `InStep` states the relation between
two readers.  It counts the tokens before the stop, which bound loops and nesting.
-/

namespace AutomationScript

open Reader

/-- Two computations end in the same way, with related results and states or with related errors
and states. -/
inductive Ends {ε σ α β : Type} (kept failed : σ → σ → Prop) (blames : ε → ε → Prop)
    (post : α → β → Prop) : EStateM.Result ε σ α → EStateM.Result ε σ β → Prop
  | ok {a : α} {b : β} {s t : σ} (holds : post a b) (related : kept s t) :
      Ends kept failed blames post (.ok a s) (.ok b t)
  | error {d d' : ε} {s t : σ} (blamed : blames d d') (related : failed s t) :
      Ends kept failed blames post (.error d s) (.error d' t)

namespace Ends

variable {ε σ α β γ δ : Type} {kept kept' failed failed' : σ → σ → Prop}
  {blames blames' : ε → ε → Prop} {post post' : α → β → Prop} {after : γ → δ → Prop}

theorem imp {ran : EStateM.Result ε σ α} {ran' : EStateM.Result ε σ β}
    (ended : Ends kept failed blames post ran ran') (keeps : ∀ {s t}, kept s t → kept' s t)
    (fails : ∀ {s t}, failed s t → failed' s t) (blamed : ∀ {d d'}, blames d d' → blames' d d')
    (weaken : ∀ {a b}, post a b → post' a b) : Ends kept' failed' blames' post' ran ran' := by
  cases ended with
  | ok holds related => exact .ok (weaken holds) (keeps related)
  | error blames related => exact .error (blamed blames) (fails related)

theorem bind {x : EStateM ε σ α} {y : EStateM ε σ β} {next : α → EStateM ε σ γ}
    {next' : β → EStateM ε σ δ} {s t : σ} (ended : Ends kept failed blames post (x s) (y t))
    (continued : ∀ a b s t, post a b → kept s t →
      Ends kept' failed blames after (next a s) (next' b t)) :
    Ends kept' failed blames after ((x >>= next) s) ((y >>= next') t) := by
  change Ends _ _ _ _ (EStateM.bind x next s) (EStateM.bind y next' t)
  unfold EStateM.bind
  generalize x s = ran at ended ⊢
  generalize y t = ran' at ended ⊢
  cases ended with
  | ok holds related => exact continued _ _ _ _ holds related
  | error blamed related => exact .error blamed related

end Ends

/-- The stream behind the end of a statement; the end of the input stays. -/
def passStop (xs : List PlacedToken) : List PlacedToken :=
  if isTerminator (headToken xs) = true then after xs else xs

def NamesToken (error : Token → GrammarError) : Prop :=
  ∃ before, ∀ token, (error token).message = before ++ token.describe

/-- Two places for the same tokens. -/
structure Splice where
  slack : Slack
  /-- What follows the tokens in the one place and in the other. -/
  Stops : List PlacedToken → List PlacedToken → Prop
  nonempty : ∀ {xs ys}, Stops xs ys → xs ≠ [] ∧ ys ≠ []
  stops : ∀ {xs ys}, Stops xs ys → isStop (headToken xs) = true ∧ isStop (headToken ys) = true

namespace Splice

variable (splice : Splice)

def Places (loc loc' : Location) : Prop :=
  splice.slack.places (some loc) (some loc')

/-- Both streams have the same tokens up to a stop, `n` of them.  The next one is `t`, or the end
of the input if both are at the stop. -/
inductive Shows : (t : Token) → (n : Nat) → (xs ys : List PlacedToken) → Prop
  | stop {xs ys : List PlacedToken} (stops : splice.Stops xs ys) : Shows .eof 0 xs ys
  | token {t next : Token} {n : Nat} {loc loc' : Location} {xs ys : List PlacedToken}
      (goesOn : isStop t = false) (placed : splice.Places loc loc') (rest : Shows next n xs ys) :
      Shows t (n + 1) (⟨t, loc⟩ :: xs) (⟨t, loc'⟩ :: ys)

/-- Two diagnostics about the same: both at the same token, or each at its own stop. -/
inductive Blames : Diagnostic → Diagnostic → Prop
  | same (error : GrammarError) {loc loc' : Location} (placed : splice.Places loc loc') :
      Blames ⟨.grammar error, some loc⟩ ⟨.grammar error, some loc'⟩
  | stop {error : Token → GrammarError} (names : NamesToken error) {xs ys : List PlacedToken}
      (stops : splice.Stops xs ys) :
      Blames ⟨.grammar (error (headToken xs)), some (headLoc xs)⟩
        ⟨.grammar (error (headToken ys)), some (headLoc ys)⟩

/-- Both streams are at the stop or before it. -/
def Shown (xs ys : List PlacedToken) : Prop :=
  ∃ t n, splice.Shows t n xs ys

/-- What is left after at least `spent` of `n` tokens before the stop.  Where a statement is
closed, a word that closes a block comes next or the stop is passed. -/
inductive Left (closed : Bool) (n spent : Nat) : (xs ys : List PlacedToken) → Prop
  | shown {t : Token} {m : Nat} {xs ys : List PlacedToken} (shown : splice.Shows t m xs ys)
      (fewer : m + spent ≤ n) (closes : closed = true → t = .endWord ∨ t = .elseWord) :
      Left closed n spent xs ys
  | stop {xs ys : List PlacedToken} (isClosed : closed = true) (stops : splice.Stops xs ys) :
      Left closed n spent (passStop xs) (passStop ys)

/-- Wherever at most `bound` tokens stand before the stop and `pre` holds of the next one, two
readers do the same. -/
def InStep {α β : Type} (closed : Bool) (bound spent : Nat) (pre : Token → Prop)
    (post : α → β → Prop) (x : Reader α) (y : Reader β) : Prop :=
  ∀ n ≤ bound, ∀ t xs ys, splice.Shows t n xs ys → pre t →
    Ends (splice.Left closed n spent) splice.Shown splice.Blames post (x xs) (y ys)

abbrev Mirrors {α β : Type} (bound spent : Nat) (pre : Token → Prop) (post : α → β → Prop)
    (x : Reader α) (y : Reader β) : Prop :=
  splice.InStep false bound spent pre post x y

abbrev Completes {α β : Type} (bound spent : Nat) (pre : Token → Prop) (post : α → β → Prop)
    (x : Reader α) (y : Reader β) : Prop :=
  splice.InStep true bound spent pre post x y

variable {splice} {α β γ δ : Type} {closed : Bool} {n spent : Nat} {pre : Token → Prop}
  {post : α → β → Prop} {after : γ → δ → Prop}

theorem Left.mono {m more : Nat} {xs ys : List PlacedToken}
    (left : splice.Left closed n spent xs ys) (fewer : n + more ≤ m + spent) :
    splice.Left closed m more xs ys := by
  cases left with
  | shown shown within closes => exact .shown shown (by omega) closes
  | stop isClosed stops => exact .stop isClosed stops

theorem Places.union {a b a' b' : Location} (first : splice.Places a a')
    (second : splice.Places b b') : splice.Places (a.union b) (a'.union b') :=
  splice.slack.union first second

theorem forall_isStop {motive : Token → Prop} (newline : motive .newline)
    (semicolon : motive .semicolon) (eof : motive .eof) : ∀ s, isStop s = true → motive s := by
  intro s stops
  cases s with
  | newline => exact newline
  | semicolon => exact semicolon
  | eof => exact eof
  | _ => cases stops

theorem goesOn_of_eq {t : Token} (goesOn : isStop t = false) : ∀ u, u = t → isStop u = false := by
  rintro _ rfl
  exact goesOn

namespace Shows

variable {t : Token} {xs ys : List PlacedToken}

theorem ne_nil (shown : splice.Shows t n xs ys) : xs ≠ [] ∧ ys ≠ [] := by
  cases shown with
  | stop stops => exact splice.nonempty stops
  | token _ _ _ => exact ⟨List.cons_ne_nil _ _, List.cons_ne_nil _ _⟩

theorem lt_length (shown : splice.Shows t n xs ys) : n < xs.length ∧ n < ys.length := by
  induction shown with
  | stop stops =>
    obtain ⟨some, some'⟩ := splice.nonempty stops
    exact ⟨List.length_pos_iff.mpr some, List.length_pos_iff.mpr some'⟩
  | token _ _ _ ih => exact ⟨Nat.succ_lt_succ ih.1, Nat.succ_lt_succ ih.2⟩

theorem after_cons (shown : splice.Shows t n xs ys) (placed placed' : PlacedToken) :
    Reader.after (placed :: xs) = xs ∧ Reader.after (placed' :: ys) = ys :=
  ⟨Reader.after_cons shown.ne_nil.1, Reader.after_cons shown.ne_nil.2⟩

end Shows

namespace InStep

section

variable {x : Reader α} {y : Reader β} {next : α → Reader γ} {next' : β → Reader δ}

theorem pure {a : α} {b : β} (holds : post a b) : splice.Mirrors n 0 pre post (pure a) (pure b) :=
  fun _ _ _ _ _ shown _ => .ok holds (.shown shown (Nat.le_refl _) Bool.noConfusion)

theorem bind (mirrors : splice.Mirrors n spent pre post x y)
    (continued : ∀ a b m, post a b → m + spent ≤ n →
      splice.InStep closed m 0 (fun _ => True) after (next a) (next' b)) :
    splice.InStep closed n spent pre after (x >>= next) (y >>= next') := by
  intro m few t xs ys shown holds
  refine (mirrors m few t xs ys shown holds).bind fun a b xs ys holds left => ?_
  cases left with
  | stop impossible _ => cases impossible
  | @shown u k _ _ shown fewer _ =>
    have ended := continued a b k holds (by omega) k (Nat.le_refl k) u xs ys shown True.intro
    exact ended.imp (·.mono fewer) id id id

theorem mono {m less : Nat} {stronger : Token → Prop} {weaker : α → β → Prop}
    (inStep : splice.InStep closed n spent pre post x y) (smaller : m ≤ n) (looser : less ≤ spent)
    (strengthen : ∀ t, stronger t → pre t) (weaken : ∀ {a b}, post a b → weaker a b) :
    splice.InStep closed m less stronger weaker x y := by
  intro k few t xs ys shown holds
  have ended := inStep k (Nat.le_trans few smaller) t xs ys shown (strengthen t holds)
  exact ended.imp (·.mono (Nat.add_le_add_left looser k)) id id weaken

theorem within {m : Nat} (inStep : splice.InStep closed n spent (fun _ => True) post x y)
    (smaller : m ≤ n) : splice.InStep closed m spent pre post x y :=
  inStep.mono smaller (Nat.le_refl _) (fun _ _ => True.intro) id

theorem loose (inStep : splice.InStep closed n spent pre post x y) :
    splice.InStep closed n 0 pre post x y :=
  inStep.mono (Nat.le_refl n) (Nat.zero_le _) (fun _ => id) id

theorem bind_loose (mirrors : splice.Mirrors n spent pre post x y)
    (continued : ∀ a b m, post a b → m + spent ≤ n →
      splice.InStep closed m 0 (fun _ => True) after (next a) (next' b)) :
    splice.InStep closed n 0 pre after (x >>= next) (y >>= next') :=
  (mirrors.bind continued).loose

theorem map {f : α → γ} {g : β → δ}
    (inStep : splice.InStep closed n spent pre (fun a b => after (f a) (g b)) x y) :
    splice.InStep closed n spent pre after (f <$> x) (g <$> y) :=
  fun m few t xs ys shown holds =>
    (inStep m few t xs ys shown holds).bind fun _ _ _ _ holds left => .ok holds left

theorem discard (inStep : splice.InStep closed n spent pre post x y) :
    splice.InStep closed n spent pre (fun _ _ => True) (discard x) (discard y) :=
  map (inStep.mono (Nat.le_refl n) (Nat.le_refl _) (fun _ => id) fun _ => True.intro)

end

variable {next : Token → Reader α} {next' : Token → Reader β}

/-- Where the readers do not tell one stop from another, the end of the input stands for all. -/
theorem peek_bind_alike (alike : ∀ s, isStop s = true → next s = next .eof ∧ next' s = next' .eof)
    (continued : ∀ t, pre t → splice.InStep closed n spent (· = t) post (next t) (next' t)) :
    splice.InStep closed n spent pre post (peek >>= next) (peek >>= next') := by
  intro m few t xs ys shown holds
  have ended := continued t holds m few t xs ys shown rfl
  cases shown with
  | token _ _ _ => exact ended
  | stop stops =>
    obtain ⟨atStop, atStop'⟩ := splice.stops stops
    change Ends _ _ _ _ (next (headToken xs) xs) (next' (headToken ys) ys)
    rwa [(alike _ atStop).1, (alike _ atStop').2]

/-- The location of the next token is known to correspond if it is before the stop. -/
theorem here_peek_bind_alike {next : Location → Token → Reader α}
    {next' : Location → Token → Reader β}
    (alike : ∀ loc loc' s, isStop s = true →
      next loc s = next loc .eof ∧ next' loc' s = next' loc' .eof)
    (continued : ∀ t loc loc', (isStop t = false → splice.Places loc loc') →
      splice.InStep closed n spent (· = t) post (next loc t) (next' loc' t)) :
    splice.InStep closed n spent pre post (here >>= fun loc => peek >>= next loc)
      (here >>= fun loc => peek >>= next' loc) := by
  intro m few t xs ys shown holds
  have placed : isStop t = false → splice.Places (headLoc xs) (headLoc ys) := by
    intro goesOn
    cases shown with
    | stop _ => cases goesOn
    | token _ placed _ => exact placed
  have mirrors : splice.InStep closed n spent (· = t) post (peek >>= next (headLoc xs))
      (peek >>= next' (headLoc ys)) := by
    apply peek_bind_alike (alike _ _)
    rintro u rfl
    exact continued u _ _ placed
  exact mirrors m few t xs ys shown rfl

theorem get_bind {next : List PlacedToken → Reader α} {next' : List PlacedToken → Reader β}
    (continued : ∀ xs ys m, m ≤ n → m < xs.length → m < ys.length →
      splice.InStep closed m spent pre post (next xs) (next' ys)) :
    splice.InStep closed n spent pre post (get >>= next) (get >>= next') := by
  intro m few t xs ys shown holds
  obtain ⟨fits, fits'⟩ := shown.lt_length
  exact continued xs ys m few fits fits' m (Nat.le_refl m) t xs ys shown holds

variable {error : GrammarError} {loc loc' : Location}

theorem fail (placed : splice.Places loc loc') :
    splice.InStep closed n spent pre post (Reader.fail error loc) (Reader.fail error loc') :=
  fun _ _ _ _ _ shown _ => .error (.same error placed) ⟨_, _, shown⟩

theorem fail_bind {next : γ → Reader α} {next' : δ → Reader β} (placed : splice.Places loc loc') :
    splice.InStep closed n spent pre post (Reader.fail error loc >>= next)
      (Reader.fail error loc' >>= next') :=
  fun _ _ _ _ _ shown _ => .error (.same error placed) ⟨_, _, shown⟩

section Before

/-! ### Before the stop -/

variable (goesOn : ∀ t, pre t → isStop t = false)

include goesOn

theorem here_bind {next : Location → Reader α} {next' : Location → Reader β}
    (continued : ∀ loc loc', splice.Places loc loc' →
      splice.InStep closed n spent pre post (next loc) (next' loc')) :
    splice.InStep closed n spent pre post (here >>= next) (here >>= next') := by
  intro m few t xs ys shown holds
  cases shown with
  | stop _ => cases goesOn _ holds
  | token isBefore placed rest =>
    exact continued _ _ placed _ few t _ _ (.token isBefore placed rest) holds

theorem fail_here (error : GrammarError) :
    splice.InStep closed n spent pre post (here >>= fun loc => Reader.fail error loc)
      (here >>= fun loc => Reader.fail error loc) :=
  here_bind goesOn fun _ _ placed => .fail placed

theorem advance : splice.Mirrors n 1 pre splice.Places Reader.advance Reader.advance := by
  intro m few t xs ys shown holds
  cases shown with
  | stop _ => cases goesOn _ holds
  | @token _ _ _ loc loc' xs ys _ placed rest =>
    obtain ⟨moved, moved'⟩ := rest.after_cons ⟨t, loc⟩ ⟨t, loc'⟩
    change Ends _ _ _ _ (.ok loc (Reader.after (⟨t, loc⟩ :: xs)))
      (.ok loc' (Reader.after (⟨t, loc'⟩ :: ys)))
    rw [moved, moved']
    exact .ok placed (.shown rest (Nat.le_refl _) Bool.noConfusion)

end Before

/-- Readers that fail at a stop and name it. -/
theorem peek_bind_naming {error : Token → GrammarError} (names : NamesToken error)
    (atStop : ∀ s, isStop s = true →
      (next s = here >>= fun loc => Reader.fail (error s) loc) ∧
        next' s = here >>= fun loc => Reader.fail (error s) loc)
    (before : ∀ t, isStop t = false → splice.InStep closed n spent (· = t) post (next t) (next' t)) :
    splice.InStep closed n spent pre post (peek >>= next) (peek >>= next') := by
  intro m few t xs ys shown holds
  cases shown with
  | token goesOn placed rest => exact before t goesOn _ few t _ _ (.token goesOn placed rest) rfl
  | stop stops =>
    obtain ⟨isStop, isStop'⟩ := splice.stops stops
    change Ends _ _ _ _ (next (headToken xs) xs) (next' (headToken ys) ys)
    rw [(atStop _ isStop).1, (atStop _ isStop').2]
    exact .error (.stop names stops) ⟨_, _, .stop stops⟩

theorem unexpected :
    splice.InStep closed n spent pre post (Reader.unexpected : Reader α)
      (Reader.unexpected : Reader β) := by
  apply peek_bind_naming ⟨_, fun _ => rfl⟩ fun _ _ => ⟨rfl, rfl⟩
  intro t isBefore
  exact fail_here (goesOn_of_eq isBefore) _

theorem expect {wanted : Token} (goesOn : isStop wanted = false) :
    splice.Mirrors n 1 pre splice.Places (Reader.expect wanted) (Reader.expect wanted) := by
  have differs : ∀ s, isStop s = true → ¬s = wanted := by
    rintro s stops rfl
    rw [goesOn] at stops
    cases stops
  apply peek_bind_naming ⟨_, fun _ => rfl⟩ fun s stops =>
    ⟨if_neg (differs s stops), if_neg (differs s stops)⟩
  intro t isBefore
  by_cases same : t = wanted
  · rw [if_pos same]
    exact advance (goesOn_of_eq isBefore)
  · rw [if_neg same]
    exact fail_here (goesOn_of_eq isBefore) _

theorem expectIdent :
    splice.Mirrors n 1 pre (fun found found' => found.1 = found'.1 ∧ splice.Places found.2 found'.2)
      Reader.expectIdent Reader.expectIdent := by
  apply peek_bind_naming ⟨_, fun _ => rfl⟩ (forall_isStop ⟨rfl, rfl⟩ ⟨rfl, rfl⟩ ⟨rfl, rfl⟩)
  intro t isBefore
  cases t with
  | ident name =>
    exact (advance (goesOn_of_eq rfl)).bind fun _ _ _ placed _ => .pure ⟨rfl, placed⟩
  | _ => exact fail_here (goesOn_of_eq isBefore) _

end InStep

end Splice

end AutomationScript
