/-!
# Brackets and quotes in a text

A text is well bracketed if every bracket and every quote that it opens is closed in it, in order.
Such a text closes nothing that is open around it (`WellBracketed.after_eq`).
-/

namespace AutomationScript

open List

variable {c : Char} {outer chars : List Char}

namespace Bracket

variable {awaited next : List Char}

/-- The mark that closes what this one opens.  A quote is closed by another one. -/
def closing? : Char → Option Char
  | '(' => some ')'
  | '[' => some ']'
  | '\x7b' => some '\x7d'
  | '\'' => some '\''
  | '"' => some '"'
  | _ => none

def isClosing (c : Char) : Bool :=
  [')', ']', '\x7d'].contains c

def isQuote (c : Char) : Bool :=
  ['\'', '"'].contains c

/-- The marks that have to come after a character that closes nothing; none is left if it is a
closing bracket. -/
def enter (awaited : List Char) (c : Char) : Option (List Char) :=
  match closing? c with
  | some closing => some (closing :: awaited)
  | none => if isClosing c then none else some awaited

/-- The marks that have to come, the innermost first, after one more character.  Nothing counts in a
string but its end. -/
def step : (awaited : List Char) → Char → Option (List Char)
  | [], c => enter [] c
  | innermost :: others, c =>
    if c = innermost then some others
    else if isQuote innermost then some (innermost :: others)
    else enter (innermost :: others) c

def after (awaited : List Char) : List Char → Option (List Char)
  | [] => some awaited
  | c :: rest => (step awaited c).bind fun next => after next rest

theorem after_append (awaited front back : List Char) :
    after awaited (front ++ back) = (after awaited front).bind fun next => after next back := by
  induction front generalizing awaited with
  | nil => rfl
  | cons c rest ih =>
    rw [cons_append, after, after]
    cases step awaited c with
    | none => rfl
    | some next => exact ih next

theorem enter_inside (found : enter awaited c = some next) (outer : List Char) :
    enter (awaited ++ outer) c = some (next ++ outer) := by
  unfold enter at found ⊢
  cases opens : closing? c with
  | some closing =>
    rw [opens] at found
    cases found
    rfl
  | none =>
    rw [opens] at found
    dsimp only at found ⊢
    split at found
    · cases found
    next plain =>
      cases found
      exact if_neg plain

theorem isClosing_of_closing? {closing : Char} (opens : closing? c = some closing) :
    isClosing c = false := by
  unfold closing? at opens
  split at opens
  all_goals first | decide | cases opens

theorem isClosing_of_enter (found : enter awaited c = some next) : isClosing c = false := by
  unfold enter at found
  cases opens : closing? c with
  | some closing => exact isClosing_of_closing? opens
  | none =>
    rw [opens] at found
    dsimp only at found
    split at found
    · cases found
    next plain => exact Bool.eq_false_iff.mpr plain

theorem isQuote_of_isClosing (closes : isClosing c = true) : isQuote c = false := by
  have noQuote : [')', ']', '\x7d'].all (fun closing => !isQuote closing) = true := by decide
  have isOne := all_eq_true.mp noQuote c (contains_iff_mem.mp closes)
  exact Bool.not_eq_true' _ |>.mp isOne

theorem step_inside (found : step awaited c = some next)
    (brackets : ∀ closing ∈ outer, isClosing closing = true) :
    step (awaited ++ outer) c = some (next ++ outer) := by
  cases awaited with
  | nil =>
    have entered := enter_inside found outer
    cases outer with
    | nil => exact entered
    | cons closing others =>
      have closes := brackets closing mem_cons_self
      have different : c ≠ closing := by
        rintro rfl
        rw [isClosing_of_enter found] at closes
        cases closes
      have notQuoted : ¬ isQuote closing = true :=
        Bool.eq_false_iff.mp (isQuote_of_isClosing closes)
      rw [nil_append, step, if_neg different, if_neg notQuoted]
      exact entered
  | cons innermost others =>
    simp only [cons_append, step] at found ⊢
    split at found
    next ends =>
      cases found
      exact if_pos ends
    next goesOn =>
      rw [if_neg goesOn]
      split at found
      next inString =>
        cases found
        exact if_pos inString
      next inBrackets =>
        rw [if_neg inBrackets]
        exact enter_inside found outer

theorem after_inside {last : List Char} (found : after awaited chars = some last)
    (brackets : ∀ closing ∈ outer, isClosing closing = true) :
    after (awaited ++ outer) chars = some (last ++ outer) := by
  induction chars generalizing awaited with
  | nil =>
    cases found
    rfl
  | cons c rest ih =>
    obtain ⟨next, stepped, found⟩ := Option.bind_eq_some_iff.mp found
    rw [after, step_inside stepped brackets]
    exact ih found

theorem after_quoted {quote : Char} (isOne : isQuote quote = true) (free : quote ∉ chars) :
    after [quote] chars = some [quote] := by
  induction chars with
  | nil => rfl
  | cons c rest ih =>
    have different : c ≠ quote := fun same => free (same ▸ mem_cons_self)
    rw [after, step, if_neg different, if_pos isOne]
    exact ih fun member => free (mem_cons_of_mem _ member)

end Bracket

/-- Every bracket and every quote that the text opens is closed in it. -/
def WellBracketed (chars : List Char) : Prop :=
  Bracket.after [] chars = some []

instance (chars : List Char) : Decidable (WellBracketed chars) :=
  inferInstanceAs (Decidable (_ = _))

def bracketMarks : List Char :=
  ['(', ')', '[', ']', '\x7b', '\x7d', '\'', '"']

theorem Bracket.step_of_notMem (plain : c ∉ bracketMarks) : step [] c = some [] := by
  have opensNothing : closing? c = none := by
    unfold closing?
    split
    all_goals first | rfl | exact absurd (by decide) plain
  have closesNothing : isClosing c = false := by
    have allMarks : [')', ']', '\x7d'].all bracketMarks.contains = true := by decide
    refine Bool.eq_false_iff.mpr fun closes => plain (contains_iff_mem.mp ?_)
    exact all_eq_true.mp allMarks c (contains_iff_mem.mp closes)
  simp [step, enter, opensNothing, closesNothing]

namespace WellBracketed

variable {front back inner before rest : List Char}

theorem append (first : WellBracketed front) (second : WellBracketed back) :
    WellBracketed (front ++ back) := by
  rw [WellBracketed, Bracket.after_append, first]
  exact second

theorem of_append (first : WellBracketed front) (whole : WellBracketed (front ++ back)) :
    WellBracketed back := by
  rw [WellBracketed, Bracket.after_append, first] at whole
  exact whole

theorem of_notMem (plain : ∀ c ∈ chars, c ∉ bracketMarks) : WellBracketed chars := by
  induction chars with
  | nil => rfl
  | cons c others ih =>
    rw [WellBracketed, Bracket.after, Bracket.step_of_notMem (plain c mem_cons_self)]
    exact ih fun c member => plain c (mem_cons_of_mem _ member)

theorem after_eq (closed : WellBracketed inner)
    (brackets : ∀ closing ∈ outer, Bracket.isClosing closing = true) :
    Bracket.after outer inner = some outer :=
  Bracket.after_inside closed brackets

/-- A text between two marks is well bracketed at its ends only, if the first mark is open at all
places between them. -/
theorem start_of_enclosed {opening closing : Char}
    (opens : Bracket.step [] opening = some [closing])
    (staysOpen : ∀ start tail, inner = start ++ tail → Bracket.after [closing] start ≠ some [])
    (cut : opening :: (inner ++ [closing]) = before ++ rest) (start : WellBracketed before) :
    before = [] ∨ rest = [] := by
  rcases before with _ | ⟨c, more⟩
  · exact .inl rfl
  · obtain ⟨rfl, cutInside⟩ := List.cons.inj cut
    have ended : Bracket.after [closing] more = some [] := by
      rw [WellBracketed, Bracket.after, opens] at start
      exact start
    rcases append_eq_append_iff.mp cutInside with ⟨tail, rfl, last⟩ | ⟨tail, whole, _⟩
    · cases tail with
      | nil =>
        rw [append_nil] at ended
        exact absurd ended (staysOpen inner [] (append_nil inner).symm)
      | cons mark others =>
        have nothing := append_eq_nil_iff.mp (List.cons.inj last).2.symm
        exact .inr nothing.2
    · exact absurd ended (staysOpen more tail whole)

theorem parenthesized (closed : WellBracketed inner) : WellBracketed ('(' :: (inner ++ [')'])) := by
  have bracket : ∀ c ∈ [')'], Bracket.isClosing c = true := forall_mem_singleton.mpr rfl
  have opened : Bracket.after [] ('(' :: (inner ++ [')'])) =
      Bracket.after [')'] (inner ++ [')']) := rfl
  rw [WellBracketed, opened, Bracket.after_append, closed.after_eq bracket]
  rfl

theorem start_of_parenthesized (closed : WellBracketed inner)
    (cut : '(' :: (inner ++ [')']) = before ++ rest) (start : WellBracketed before) :
    before = [] ∨ rest = [] := by
  refine start_of_enclosed rfl (fun start tail whole ended => ?_) cut start
  -- What the start leaves open stands before the parenthesis that is awaited after it.
  rw [WellBracketed, whole, Bracket.after_append] at closed
  obtain ⟨awaited, reached, _⟩ := Option.bind_eq_some_iff.mp closed
  have bracket : ∀ c ∈ [')'], Bracket.isClosing c = true := forall_mem_singleton.mpr rfl
  have inside := Bracket.after_inside reached bracket
  rw [nil_append, ended] at inside
  simp at inside

theorem quoted (free : '\'' ∉ chars) : WellBracketed ('\'' :: (chars ++ ['\''])) := by
  have opened : Bracket.after [] ('\'' :: (chars ++ ['\''])) =
      Bracket.after ['\''] (chars ++ ['\'']) := rfl
  rw [WellBracketed, opened, Bracket.after_append, Bracket.after_quoted (by decide) free]
  rfl

theorem start_of_quoted (free : '\'' ∉ chars) (cut : '\'' :: (chars ++ ['\'']) = before ++ rest)
    (start : WellBracketed before) : before = [] ∨ rest = [] := by
  refine start_of_enclosed rfl (fun start tail whole ended => ?_) cut start
  have inString : '\'' ∉ start := fun member => free (whole ▸ mem_append_left tail member)
  rw [Bracket.after_quoted (by decide) inString] at ended
  cases ended

end WellBracketed

end AutomationScript
