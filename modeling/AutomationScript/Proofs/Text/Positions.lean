import Mathlib.Data.List.Induction
import Mathlib.Data.List.TakeWhile
import Mathlib.Order.MinMax
import AutomationScript.Text.Lines

/-!
# Positions in a text

The position of a place in a text is read off the characters before it (`positionAfter`).  A table
of lines finds it from the offset in bytes (`position_byteSize`), and the start of the line for an
offset inside of a character (`position_eq`).

A location lies inside a text if it reaches from one place between characters to a later one.
-/

namespace AutomationScript

open List

/-! ## The order of positions -/

namespace Position

variable {p q : Position}

theorem le_iff : p ≤ q ↔ p.line < q.line ∨ p.line = q.line ∧ p.column ≤ q.column := by
  change p.le q = true ↔ _
  simp [le]

instance : LinearOrder Position where
  le_refl p := by rw [le_iff]; omega
  le_trans p q r first second := by rw [le_iff] at *; omega
  le_antisymm p q forth back := by
    rw [le_iff] at forth back
    obtain ⟨line, column⟩ := p
    obtain ⟨line', column'⟩ := q
    dsimp only at forth back
    rw [Position.mk.injEq]
    omega
  le_total p q := by rw [le_iff, le_iff]; omega
  toDecidableLE := inferInstance

theorem lt_iff : p < q ↔ p.line < q.line ∨ p.line = q.line ∧ p.column < q.column := by
  rw [lt_iff_le_not_ge, le_iff, le_iff]
  omega

end Position

/-! ## Sizes in bytes -/

theorem byteSize_append (front back : List Char) :
    byteSize (front ++ back) = byteSize front + byteSize back := by
  induction front with
  | nil => exact (Nat.zero_add _).symm
  | cons c rest ih => rw [cons_append, byteSize, byteSize, ih, Nat.add_assoc]

theorem utf8ByteSize_ofList (chars : List Char) :
    (String.ofList chars).utf8ByteSize = byteSize chars := by
  induction chars with
  | nil => rfl
  | cons c rest ih =>
    rw [String.ofList_cons, String.utf8ByteSize_append, String.utf8ByteSize_singleton, ih]
    simp [byteSize]

theorem utf8ByteSize_eq (source : String) : source.utf8ByteSize = byteSize source.toList := by
  rw [← utf8ByteSize_ofList, String.ofList_toList]

theorem byteSize_eq_zero {chars : List Char} (none : byteSize chars = 0) : chars = [] := by
  cases chars with
  | nil => rfl
  | cons c rest =>
    have positive := c.utf8Size_pos
    rw [byteSize] at none
    omega

theorem eq_of_byteSize_eq {front back front' back' : List Char}
    (whole : front ++ back = front' ++ back') (size : byteSize front = byteSize front') :
    front = front' := by
  rcases append_eq_append_iff.mp whole with ⟨more, rfl, -⟩ | ⟨more, rfl, -⟩
  all_goals
    rw [byteSize_append] at size
    obtain rfl : more = [] := byteSize_eq_zero (by omega)
    rw [append_nil]

/-! ## Positions after characters -/

/-- The position right after the characters, which are all that stands before it. -/
def positionAfter (before : List Char) : Position where
  line := before.count '\n' + 1
  column := (before.reverse.takeWhile (· != '\n')).length + 1

theorem count_eq_zero_iff_takeWhile (before : List Char) :
    before.count '\n' = 0 ↔
      (before.reverse.takeWhile (· != '\n')).length = before.reverse.length := by
  rw [count_eq_zero]
  constructor
  · intro absent
    rw [takeWhile_eq_self_iff.mpr]
    intro c member
    have different : c ≠ '\n' := by
      rintro rfl
      exact absent (mem_reverse.mp member)
    simpa using different
  · intro whole present
    have all := IsPrefix.eq_of_length ( takeWhile_prefix _) whole
    have different := takeWhile_eq_self_iff.mp all '\n' (mem_reverse.mpr present)
    simp at different

/-- A character more at the front: a line feed starts one more line, and another character moves
the first line only. -/
theorem positionAfter_cons (c : Char) (rest : List Char) :
    positionAfter (c :: rest) =
      if c = '\n' then ⟨(positionAfter rest).line + 1, (positionAfter rest).column⟩
      else if (positionAfter rest).line = 1 then ⟨1, (positionAfter rest).column + 1⟩
      else positionAfter rest := by
  have firstLine : (positionAfter rest).line = 1 ↔ (rest.reverse.takeWhile (· != '\n')).length =
      rest.reverse.length := by
    rw [← count_eq_zero_iff_takeWhile]
    simp [positionAfter]
  have columns : (positionAfter (c :: rest)).column =
      (if (rest.reverse.takeWhile (· != '\n')).length = rest.reverse.length then
        rest.reverse ++ [c].takeWhile (· != '\n')
      else rest.reverse.takeWhile (· != '\n')).length + 1 := by
    rw [← takeWhile_append, ← reverse_cons]
    rfl
  by_cases lineFeed : c = '\n'
  · subst lineFeed
    have sameColumn : (positionAfter ('\n' :: rest)).column = (positionAfter rest).column := by
      rw [columns]
      split
      next whole =>
        change (rest.reverse ++ []).length + 1 = (rest.reverse.takeWhile (· != '\n')).length + 1
        rw [append_nil, whole]
      next => rfl
    rw [if_pos rfl, ← sameColumn]
    simp [positionAfter]
  · have sameLine : (positionAfter (c :: rest)).line = (positionAfter rest).line := by
      simp [positionAfter, lineFeed]
    rw [if_neg lineFeed]
    by_cases first : (positionAfter rest).line = 1
    · have nextColumn : (positionAfter (c :: rest)).column = (positionAfter rest).column + 1 := by
        rw [columns, if_pos (firstLine.mp first)]
        have kept : [c].takeWhile (· != '\n') = [c] := by
          simp [lineFeed]
        rw [kept, length_append, ← firstLine.mp first]
        rfl
      rw [if_pos first, ← nextColumn, ← first, ← sameLine]
    · have sameColumn : (positionAfter (c :: rest)).column = (positionAfter rest).column := by
        rw [columns, if_neg fun whole => first (firstLine.mpr whole)]
        rfl
      rw [if_neg first]
      calc positionAfter (c :: rest)
          = ⟨(positionAfter (c :: rest)).line, (positionAfter (c :: rest)).column⟩ := rfl
        _ = positionAfter rest := by rw [sameLine, sameColumn]

theorem positionAfter_concat (front : List Char) (c : Char) :
    positionAfter (front ++ [c]) =
      if c = '\n' then ⟨(positionAfter front).line + 1, 1⟩
      else ⟨(positionAfter front).line, (positionAfter front).column + 1⟩ := by
  by_cases lineFeed : c = '\n' <;> simp [positionAfter, lineFeed]

theorem positionAfter_lt_append (front : List Char) {middle : List Char} (some : middle ≠ []) :
    positionAfter front < positionAfter (front ++ middle) := by
  induction middle using List.reverseRecOn with
  | nil => exact absurd rfl some
  | append_singleton more c ih =>
    have next : positionAfter (front ++ more) < positionAfter (front ++ more ++ [c]) := by
      rw [positionAfter_concat, Position.lt_iff]
      split <;> simp
    rw [← append_assoc]
    cases more with
    | nil => rwa [append_nil] at next ⊢
    | cons d rest => exact (ih (cons_ne_nil d rest)).trans next

theorem positionAfter_le_append (front middle : List Char) :
    positionAfter front ≤ positionAfter (front ++ middle) := by
  cases middle with
  | nil => rw [append_nil]
  | cons c rest => exact (positionAfter_lt_append front (cons_ne_nil c rest)).le

theorem positionAfter_le_of_byteSize {before after before' after' : List Char}
    (whole : before ++ after = before' ++ after') (notAfter : byteSize before ≤ byteSize before') :
    positionAfter before ≤ positionAfter before' := by
  rcases append_eq_append_iff.mp whole with ⟨more, rfl, -⟩ | ⟨more, rfl, -⟩
  · exact positionAfter_le_append before more
  · rw [byteSize_append] at notAfter
    obtain rfl : more = [] := byteSize_eq_zero (by omega)
    rw [append_nil]

/-- The position of the place between characters `index - 1` and `index`. -/
def positionAt (text : List Char) (index : Nat) : Position :=
  positionAfter (text.take index)

theorem monotone_positionAt (text : List Char) : Monotone (positionAt text) := by
  intro i j inOrder
  have longer : text.take i ++ (text.take j).drop i = text.take j := by
    have split := take_append_drop i (text.take j)
    rwa [take_take, Nat.min_eq_left inOrder] at split
  unfold positionAt
  rw [← longer]
  exact positionAfter_le_append _ _

/-! ## Locations inside a text -/

/-- The location reaches from one place between characters of the text to a later one. -/
def Location.Inside (text : List Char) (loc : Location) : Prop :=
  ∃ i j, i ≤ j ∧ j ≤ text.length ∧ loc = ⟨positionAt text i, positionAt text j⟩

theorem Location.Inside.union {text : List Char} {a b : Location} (aInside : a.Inside text)
    (bInside : b.Inside text) : (a.union b).Inside text := by
  obtain ⟨i, j, inOrder, fits, rfl⟩ := aInside
  obtain ⟨i', j', inOrder', fits', rfl⟩ := bInside
  refine ⟨min i i', max j j', by omega, by omega, ?_⟩
  rw [(monotone_positionAt text).map_min, (monotone_positionAt text).map_max]
  rfl

/-- The line of the position is one of the lines of the text, and its column is at most one past
the last character of that line. -/
def Position.Within (text : List Char) (p : Position) : Prop :=
  1 ≤ p.line ∧ 1 ≤ p.column ∧
    ∃ line, (text.splitOn '\n')[p.line - 1]? = some line ∧ p.column ≤ line.length + 1

theorem splitOn_cons (c : Char) (rest : List Char) :
    (c :: rest).splitOn '\n' =
      if c = '\n' then [] :: rest.splitOn '\n'
      else (rest.splitOn '\n').modifyHead (List.cons c) := by
  rw [List.splitOn, splitOnP_cons_eq_if_modifyHead]
  simp only [beq_iff_eq]
  rfl

theorem exists_line_positionAt (text : List Char) (index : Nat) :
    ∃ line, (text.splitOn '\n')[(positionAt text index).line - 1]? = some line ∧
      (positionAt text index).column ≤ line.length + 1 := by
  induction text generalizing index with
  | nil =>
    have start : positionAt [] index = ⟨1, 1⟩ := by
      rw [positionAt, take_nil]
      rfl
    rw [start]
    exact ⟨[], rfl, Nat.le_refl 1⟩
  | cons c rest ih =>
    cases index with
    | zero =>
      cases split : (c :: rest).splitOn '\n' with
      | nil => exact absurd split (splitOn_ne_nil _ _)
      | cons line others => exact ⟨line, rfl, Nat.succ_le_succ (Nat.zero_le _)⟩
    | succ index =>
      obtain ⟨line, found, bounded⟩ := ih index
      have linePositive : 1 ≤ (positionAt rest index).line :=
        Nat.succ_le_succ (Nat.zero_le _)
      have next := positionAfter_cons c (rest.take index)
      rw [← take_succ_cons] at next
      change positionAt (c :: rest) (index + 1) = if c = '\n' then
          ⟨(positionAt rest index).line + 1, (positionAt rest index).column⟩
        else if (positionAt rest index).line = 1 then ⟨1, (positionAt rest index).column + 1⟩
        else positionAt rest index at next
      rw [next, splitOn_cons]
      by_cases lineFeed : c = '\n'
      · rw [if_pos lineFeed, if_pos lineFeed]
        refine ⟨line, ?_, bounded⟩
        dsimp only
        rw [Nat.add_sub_cancel, ← Nat.sub_add_cancel linePositive, getElem?_cons_succ]
        exact found
      · rw [if_neg lineFeed, if_neg lineFeed]
        cases split : rest.splitOn '\n' with
        | nil => exact absurd split (splitOn_ne_nil _ _)
        | cons first others =>
          rw [split] at found
          rw [modifyHead_cons]
          by_cases onFirst : (positionAt rest index).line = 1
          · rw [onFirst] at found
            have isFirst : first = line := Option.some.inj found
            subst isFirst
            rw [if_pos onFirst]
            exact ⟨c :: first, rfl, Nat.succ_le_succ bounded⟩
          · rw [if_neg onFirst]
            refine ⟨line, ?_, bounded⟩
            have further : (positionAt rest index).line - 1 =
                (positionAt rest index).line - 2 + 1 := by omega
            rw [further, getElem?_cons_succ] at found ⊢
            exact found

theorem within_positionAt (text : List Char) (index : Nat) : (positionAt text index).Within text :=
  ⟨Nat.succ_le_succ (Nat.zero_le _), Nat.succ_le_succ (Nat.zero_le _),
    exists_line_positionAt text index⟩

/-! ## Tables of lines -/

/-- The first line starts where the text does, and every other line after its first character. -/
theorem linesFrom_starts (start : Nat) (chars : List Char) :
    ∃ line lines, linesFrom start chars = line :: lines ∧ line.start = start ∧
      ∀ later ∈ lines, ∃ c ∈ chars.head?, start + c.utf8Size ≤ later.start := by
  induction chars generalizing start with
  | nil => exact ⟨⟨start, []⟩, [], rfl, rfl, forall_mem_nil _⟩
  | cons c rest ih =>
    obtain ⟨line, lines, cut, atStart, after⟩ := ih (start + c.utf8Size)
    have further : ∀ later ∈ line :: lines, start + c.utf8Size ≤ later.start := by
      intro later member
      rcases mem_cons.mp member with rfl | member
      · exact atStart.ge
      · obtain ⟨_, _, behind⟩ := after later member
        omega
    by_cases lineFeed : c = '\n'
    · rw [linesFrom, if_pos lineFeed, cut]
      exact ⟨_, _, rfl, rfl, fun later member => ⟨c, rfl, further later member⟩⟩
    · rw [linesFrom, if_neg lineFeed, cut]
      exact ⟨_, _, rfl, rfl, fun later member =>
        ⟨c, rfl, further later (mem_cons_of_mem line member)⟩⟩

theorem linesFrom_cons {c : Char} (noLineFeed : c ≠ '\n') (start : Nat) (rest : List Char) :
    ∃ line lines, linesFrom (start + c.utf8Size) rest = line :: lines ∧
      line.start = start + c.utf8Size ∧
      linesFrom start (c :: rest) = ⟨start, c :: line.chars⟩ :: lines := by
  obtain ⟨line, lines, cut, atStart, _⟩ := linesFrom_starts (start + c.utf8Size) rest
  refine ⟨line, lines, cut, atStart, ?_⟩
  rw [linesFrom, if_neg noLineFeed, cut]

theorem charsIn_cons (c : Char) (bytes : Nat) (rest : List Char) :
    LineTable.charsIn (c.utf8Size + bytes) (c :: rest) =
      (LineTable.charsIn bytes rest).map (· + 1) := by
  have width := c.utf8Size_pos
  have more : c.utf8Size + bytes = c.utf8Size + bytes - 1 + 1 := by omega
  have fits : c.utf8Size ≤ c.utf8Size + bytes - 1 + 1 := by omega
  have left : c.utf8Size + bytes - 1 + 1 - c.utf8Size = bytes := by omega
  rw [more, LineTable.charsIn, if_pos fits, left]

/-- No character fits into the bytes of a part of the first one. -/
theorem charsIn_first {after : List Char} {inset start : Nat} {first : Line} {others : List Line}
    (inside : ∀ c ∈ after.head?, inset < c.utf8Size)
    (cut : linesFrom start after = first :: others) :
    LineTable.charsIn inset first.chars = if inset = 0 ∨ after = [] then some 0 else none := by
  cases after with
  | nil =>
    cases cut
    rw [if_pos (.inr rfl)]
    cases inset <;> rfl
  | cons c rest =>
    obtain ⟨more, opens⟩ : ∃ more, first.chars = c :: more := by
      rw [linesFrom] at cut
      split at cut
      · cases cut
        exact ⟨[], rfl⟩
      · split at cut <;> cases cut <;> exact ⟨_, rfl⟩
    have short := inside c rfl
    rw [opens]
    cases inset with
    | zero => rfl
    | succ inset =>
      rw [LineTable.charsIn, if_neg (Nat.not_le.mpr short), if_neg (by simp)]

section Places

variable {after : List Char} {inset : Nat} (inside : ∀ c ∈ after.head?, inset < c.utf8Size)

include inside

/-- The lines that start at the place or before it are those up to the line of the place.  The place
may lie inside the character that follows, or past the end of the text. -/
theorem start_le_iff {before : List Char} {start j : Nat} {line : Line}
    (found : (linesFrom start (before ++ after))[j]? = some line) :
    line.start ≤ start + byteSize before + inset ↔ j ≤ before.count '\n' := by
  induction before generalizing start j line with
  | nil =>
    obtain ⟨first, others, cut, atStart, later⟩ := linesFrom_starts start after
    rw [nil_append, cut] at found
    cases j with
    | zero =>
      have isFirst : first = line := Option.some.inj found
      rw [← isFirst, atStart, byteSize, Nat.add_zero]
      simp
    | succ j =>
      obtain ⟨c, isHead, further⟩ := later line (mem_of_getElem? found)
      have within := inside c isHead
      simp only [byteSize, count_nil]
      omega
  | cons c rest ih =>
    by_cases lineFeed : c = '\n'
    · rw [cons_append, linesFrom, if_pos lineFeed] at found
      have counted : (c :: rest).count '\n' = rest.count '\n' + 1 := by
        rw [lineFeed, count_cons_self]
      rw [counted, byteSize]
      cases j with
      | zero =>
        have isFirst : (⟨start, [c]⟩ : Line) = line := Option.some.inj found
        rw [← isFirst]
        dsimp only
        omega
      | succ j =>
        have rest := ih found
        omega
    · obtain ⟨first, others, cut, atStart, joined⟩ := linesFrom_cons lineFeed start (rest ++ after)
      rw [cons_append, joined] at found
      have counted : (c :: rest).count '\n' = rest.count '\n' := by
        simp [lineFeed]
      rw [counted, byteSize]
      cases j with
      | zero =>
        have isFirst : (⟨start, c :: first.chars⟩ : Line) = line := Option.some.inj found
        rw [← isFirst]
        dsimp only
        omega
      | succ j =>
        have inRest : (linesFrom (start + c.utf8Size) (rest ++ after))[j + 1]? = some line := by
          rw [cut]
          exact found
        have rest := ih inRest
        omega

/-- The line of the place has as many characters before the place as its column says, if the place
lies between characters. -/
theorem exists_line_of_place (start : Nat) (before : List Char) :
    ∃ line, (linesFrom start (before ++ after))[before.count '\n']? = some line ∧
      line.start ≤ start + byteSize before ∧
      LineTable.charsIn (start + byteSize before + inset - line.start) line.chars =
        if inset = 0 ∨ after = [] then some ((positionAfter before).column - 1) else none := by
  induction before generalizing start with
  | nil =>
    obtain ⟨first, others, cut, atStart, _⟩ := linesFrom_starts start after
    refine ⟨first, by rw [nil_append, cut]; rfl, by rw [atStart, byteSize, Nat.add_zero], ?_⟩
    rw [atStart, byteSize, Nat.add_zero, Nat.add_sub_cancel_left]
    exact charsIn_first inside cut
  | cons c rest ih =>
    obtain ⟨line, found, notAfter, counted⟩ := ih (start + c.utf8Size)
    have position := positionAfter_cons c rest
    by_cases lineFeed : c = '\n'
    · rw [if_pos lineFeed] at position
      refine ⟨line, ?_, ?_, ?_⟩
      · subst lineFeed
        rw [count_cons_self, cons_append, linesFrom, if_pos rfl,
          getElem?_cons_succ]
        exact found
      · rw [byteSize, ← Nat.add_assoc]
        exact notAfter
      · rw [position, byteSize, ← Nat.add_assoc]
        exact counted
    · rw [if_neg lineFeed] at position
      obtain ⟨first, others, cut, atStart, joined⟩ := linesFrom_cons lineFeed start (rest ++ after)
      have sameCount : (c :: rest).count '\n' = rest.count '\n' := by
        simp [lineFeed]
      rw [cut] at found
      rw [sameCount, cons_append, joined, position]
      cases lineFeeds : rest.count '\n' with
      | zero =>
        have onFirst : (positionAfter rest).line = 1 := congrArg (· + 1) lineFeeds
        rw [lineFeeds] at found
        have isFirst : first = line := Option.some.inj found
        subst isFirst
        refine ⟨⟨start, c :: first.chars⟩, rfl, Nat.le_add_right _ _, ?_⟩
        have ahead : start + byteSize (c :: rest) + inset - start =
            c.utf8Size + (byteSize rest + inset) := by
          rw [byteSize]
          omega
        have behind : start + c.utf8Size + byteSize rest + inset - first.start =
            byteSize rest + inset := by
          omega
        have columnPositive : 1 ≤ (positionAfter rest).column :=
          Nat.succ_le_succ (Nat.zero_le _)
        rw [if_pos onFirst]
        dsimp only
        rw [ahead, charsIn_cons, ← behind, counted, Nat.add_sub_cancel]
        split
        · rw [Option.map_some, Nat.sub_add_cancel columnPositive]
        · rfl
      | succ lineFeeds' =>
        have notFirst : ¬ (positionAfter rest).line = 1 := by
          change ¬ rest.count '\n' + 1 = 1
          omega
        rw [lineFeeds] at found
        rw [if_neg notFirst]
        refine ⟨line, found, ?_, ?_⟩
        · rw [byteSize, ← Nat.add_assoc]
          exact notAfter
        · rw [byteSize, ← Nat.add_assoc]
          exact counted

end Places

namespace LineTable

/-- Halving finds the last line that starts at the offset or before it. -/
theorem search_eq {table : LineTable} {offset place size : Nat}
    (starts : ∀ j, j < size → (table.startOf j ≤ offset ↔ j ≤ place)) (low high : Nat)
    (above : low ≤ place) (below : place < high) (fits : high ≤ size) :
    table.search offset low high = place := by
  induction low, high using LineTable.search.induct table offset with
  | case1 low high several middle starts' ih =>
    rw [search, if_pos several, if_pos starts']
    have reached := (starts middle (by omega)).mp starts'
    exact ih reached below fits
  | case2 low high several middle startsLater ih =>
    rw [search, if_pos several, if_neg startsLater]
    have notReached : ¬ middle ≤ place := fun reached =>
      startsLater ((starts middle (by omega)).mpr reached)
    exact ih above (by omega) (by omega)
  | case3 low high single =>
    rw [search, if_neg single]
    omega

/-- The position of an offset.  Inside of a character it is the start of the line. -/
theorem position_eq (before : List Char) {after : List Char} {inset : Nat}
    (inside : ∀ c ∈ after.head?, inset < c.utf8Size) :
    (ofChars (before ++ after)).position (byteSize before + inset) =
      if inset = 0 ∨ after = [] then positionAfter before
      else ⟨(positionAfter before).line, 1⟩ := by
  obtain ⟨line, found, _, counted⟩ := exists_line_of_place inside 0 before
  rw [Nat.zero_add] at counted
  have inTable : ∀ j, (ofChars (before ++ after)).lines[j]? =
      (linesFrom 0 (before ++ after))[j]? := fun j => getElem?_toArray
  have starts : ∀ j, j < (linesFrom 0 (before ++ after)).length →
      ((ofChars (before ++ after)).startOf j ≤ byteSize before + inset ↔
        j ≤ before.count '\n') := by
    intro j inRange
    have foundAt := getElem?_eq_getElem inRange
    have iff := start_le_iff inside foundAt
    rw [Nat.zero_add] at iff
    rw [startOf, inTable, foundAt]
    exact iff
  have inRange : before.count '\n' < (linesFrom 0 (before ++ after)).length :=
    (List.getElem?_eq_some_iff.mp found).1
  have index : (ofChars (before ++ after)).search (byteSize before + inset) 0
      (ofChars (before ++ after)).lines.size = before.count '\n' :=
    search_eq starts 0 _ (Nat.zero_le _) inRange (Nat.le_refl _)
  unfold position
  dsimp only
  rw [index, inTable, found, Option.getD_some, counted]
  split <;> rfl

theorem position_byteSize (before after : List Char) :
    (ofChars (before ++ after)).position (byteSize before) = positionAfter before := by
  have exact := position_eq before fun c (_ : c ∈ after.head?) => c.utf8Size_pos
  rwa [if_pos (.inl rfl), Nat.add_zero] at exact

/-- Every offset is right after some characters, inside of the next one, or past the end. -/
theorem exists_place (chars : List Char) (offset : Nat) :
    ∃ before after inset, chars = before ++ after ∧ offset = byteSize before + inset ∧
      ∀ c ∈ after.head?, inset < c.utf8Size := by
  induction chars generalizing offset with
  | nil => exact ⟨[], [], offset, rfl, (Nat.zero_add _).symm, by simp⟩
  | cons c rest ih =>
    by_cases within : offset < c.utf8Size
    · exact ⟨[], c :: rest, offset, rfl, (Nat.zero_add _).symm, by simpa using within⟩
    · obtain ⟨before, after, inset, rfl, isOffset, inside⟩ := ih (offset - c.utf8Size)
      refine ⟨c :: before, after, inset, rfl, ?_, inside⟩
      rw [byteSize]
      omega

/-- A position is at the end of what stands before it, or earlier in the same line. -/
theorem position_le (before : List Char) {after : List Char} {inset : Nat}
    (inside : ∀ c ∈ after.head?, inset < c.utf8Size) :
    (ofChars (before ++ after)).position (byteSize before + inset) ≤ positionAfter before := by
  rw [position_eq before inside]
  split
  · exact le_rfl
  · exact Position.le_iff.mpr (.inr ⟨rfl, Nat.succ_le_succ (Nat.zero_le _)⟩)

end LineTable

/-- Between characters, the line of a position is one more than the line feeds before it, and its
column is one more than the characters since the last of them.  So positions go up with the offsets
between characters, and the location of a span does not stop before it starts, unless the span ends
inside of a character. -/
theorem position_at_boundaries (source : String) :
    (∀ before after, source.toList = before ++ after →
      (LineTable.ofText source).position (byteSize before) =
        ⟨1 + before.count '\n', 1 + (before.reverse.takeWhile (· != '\n')).length⟩) ∧
    (∀ before middle after, source.toList = before ++ middle ++ after → middle ≠ [] →
      (LineTable.ofText source).position (byteSize before) <
        (LineTable.ofText source).position (byteSize (before ++ middle))) ∧
    ∀ span : Span, span.start ≤ span.stop →
      (source.utf8ByteSize ≤ span.stop ∨
        ∃ before after, source.toList = before ++ after ∧ span.stop = byteSize before) →
      ((LineTable.ofText source).location span).start ≤
        ((LineTable.ofText source).location span).stop := by
  have boundary : ∀ before after, source.toList = before ++ after →
      (LineTable.ofText source).position (byteSize before) = positionAfter before := by
    intro before after whole
    rw [LineTable.ofText, whole, LineTable.position_byteSize]
  refine ⟨fun before after whole => ?_, fun before middle after whole some => ?_,
    fun span inOrder atBoundary => ?_⟩
  · rw [boundary before after whole, Nat.add_comm 1, Nat.add_comm 1]
    rfl
  · rw [boundary (before ++ middle) after whole,
      boundary before (middle ++ after) (whole.trans (List.append_assoc ..))]
    exact positionAfter_lt_append before some
  · obtain ⟨before, after, inset, whole, isStart, inside⟩ :=
      LineTable.exists_place source.toList span.start
    have started := LineTable.position_le before inside
    rw [← whole, ← isStart] at started
    obtain ⟨before', after', whole', notAfter, stopped⟩ : ∃ before' after',
        source.toList = before' ++ after' ∧ byteSize before ≤ byteSize before' ∧
          (LineTable.ofText source).position span.stop = positionAfter before' := by
      rcases atBoundary with pastEnd | ⟨before', after', whole', isStop⟩
      · rw [utf8ByteSize_eq] at pastEnd
        have ended : (LineTable.ofChars (source.toList ++ [])).position
            (byteSize source.toList + (span.stop - byteSize source.toList)) = _ :=
          LineTable.position_eq source.toList fun c impossible => by cases impossible
        rw [if_pos (.inr rfl), List.append_nil, Nat.add_sub_cancel' pastEnd] at ended
        refine ⟨source.toList, [], (List.append_nil _).symm, ?_, ended⟩
        rw [whole, byteSize_append]
        omega
      · exact ⟨before', after', whole', by omega, isStop ▸ boundary before' after' whole'⟩
    refine started.trans (le_of_le_of_eq ?_ stopped.symm)
    exact positionAfter_le_of_byteSize (whole.symm.trans whole') notAfter

theorem position_at_boundaries_accent :
    (LineTable.ofText "é\nb").position 2 < (LineTable.ofText "é\nb").position 3 ∧
      ((LineTable.ofText "é\nb").location ⟨1, 9⟩).start ≤
        ((LineTable.ofText "é\nb").location ⟨1, 9⟩).stop := by
  obtain ⟨-, increasing, ordered⟩ := position_at_boundaries "é\nb"
  exact ⟨increasing ['é'] ['\n'] ['b'] (by decide) (List.cons_ne_nil _ _),
    ordered ⟨1, 9⟩ (by decide) (.inl (by decide))⟩

/-- A location can stop before it starts if the span ends inside of a character. -/
theorem location_inside_character :
    ∃ span : Span, span.start ≤ span.stop ∧
      ¬((LineTable.ofText "aé").location span).start ≤
        ((LineTable.ofText "aé").location span).stop :=
  ⟨⟨1, 2⟩, by decide, by decide +kernel⟩

end AutomationScript
