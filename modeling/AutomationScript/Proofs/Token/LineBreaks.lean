import AutomationScript.Proofs.Token.Cuts

/-!
# Pieces before a line break

A line break ends every piece of a text but a fault and another line break.  So the pieces of two
texts with a line break between them are those of the one, a line break, and those of the other.
-/

namespace AutomationScript

open List

def Cut.before (first : Cut) (text : List Char) : Cut :=
  { first with rest := first.rest ++ text }

namespace Scanner

theorem splitRun_append (belongs : Char → Bool) (stops : belongs '\n' = false)
    (chars more : List Char) :
    splitRun belongs (chars ++ '\n' :: more) =
      ((splitRun belongs chars).1, (splitRun belongs chars).2 ++ '\n' :: more) := by
  induction chars with
  | nil => simp [splitRun, stops]
  | cons c rest ih =>
    by_cases belongsHere : belongs c = true
    · have split := Prod.mk.inj ih
      simp [splitRun, belongsHere] at split ⊢
      exact split
    · simp [splitRun, belongsHere]

theorem brokenOff_append (text more : List Char) : BrokenOff text (text ++ '\n' :: more) := by
  intro word oneLine begins
  rcases prefix_or_prefix_of_prefix begins (prefix_append text _) with
    inside | ⟨beyond, rfl⟩
  · exact inside
  · rw [prefix_append_right_inj] at begins
    cases beyond with
    | nil => exact (append_nil text).symm ▸ prefix_refl text
    | cons c rest =>
      obtain rfl : c = '\n' := (cons_prefix_cons.mp begins).1
      cases oneLine '\n' (mem_append_right text mem_cons_self)

/-- A line break ends every piece but a fault and another line break. -/
theorem cut_append (more : List Char) {c : Char} {chars : List Char}
    (goesOn : isLineBreak c = false) (noFault : ∀ error, (cut c chars).piece ≠ .fault error) :
    cut c (chars ++ '\n' :: more) = (cut c chars).before ('\n' :: more) := by
  have isCut := cutOf_cut c chars
  generalize cut c chars = off at isCut noFault
  cases isCut with
  | spaces isBlank =>
    obtain ⟨inside, left⟩ := Prod.mk.inj (splitRun_append isSpace rfl chars more)
    rw [cut_of_isSpace isBlank, inside, left]
    rfl
  | comment isMark doubled =>
    rw [cut_of_doubled isMark (by simp [doubled]), ← cons_append, cutComment,
      splitRun_append _ rfl]
    rfl
  | lineBreaks breaks =>
    rw [goesOn] at breaks
    cases breaks
  | token _ reads =>
    rw [reads.whole, append_assoc]
    exact reads.again _ (brokenOff_append _ more)
  | fault error => exact absurd rfl (noFault error)

end Scanner

open Scanner

/-- What the pieces of a text are. -/
def kinds (chars : List Char) : List Piece :=
  (pieces 0 chars).map PlacedPiece.piece

/-- Where a text starts does not matter for what its pieces are. -/
theorem map_piece_pieces (start : Nat) (chars : List Char) :
    (pieces start chars).map PlacedPiece.piece = kinds chars := by
  suffices same : ∀ other,
      (pieces start chars).map PlacedPiece.piece = (pieces other chars).map PlacedPiece.piece from
    same 0
  induction start, chars using pieces.induct with
  | case1 start => simp [pieces]
  | case2 start c rest first stop ih =>
    intro other
    rw [pieces, pieces, map_cons, map_cons, ih]

theorem kinds_nil : kinds [] = [] := by
  simp [kinds, pieces]

theorem kinds_cons (c : Char) (rest : List Char) :
    kinds (c :: rest) = (cut c rest).piece :: kinds (cut c rest).rest := by
  rw [kinds, pieces, map_cons, map_piece_pieces]

theorem kinds_lineBreak {c : Char} (breaks : isLineBreak c = true) (rest : List Char) :
    kinds (c :: rest) = .lineBreak :: kinds (rest.dropWhile isLineBreak) := by
  rw [kinds_cons, cut_of_isLineBreak breaks]

/-- What holds of the empty text, and of every other if it holds of what a cut leaves of it. -/
@[elab_as_elim]
theorem cut_induction {motive : List Char → Prop} (nil : motive [])
    (cons : ∀ c rest, motive (cut c rest).rest → motive (c :: rest)) (chars : List Char) :
    motive chars :=
  pieces.induct (fun _ => motive) (fun _ => nil) (fun _ => cons) 0 chars

theorem noFault_cut {c : Char} {rest : List Char}
    (noFault : ∀ error, .fault error ∉ kinds (c :: rest)) :
    (∀ error, (cut c rest).piece ≠ .fault error) ∧
      ∀ error, .fault error ∉ kinds (cut c rest).rest := by
  rw [kinds_cons] at noFault
  exact ⟨fun error same => noFault error (same ▸ mem_cons_self),
    fun error member => noFault error (mem_cons_of_mem _ member)⟩

section Folds

variable {σ : Type} {step : σ → Piece → σ}

/-- Line breaks at the start of a text count once. -/
theorem foldl_kinds_dropWhile
    (once : ∀ state, step (step state .lineBreak) .lineBreak = step state .lineBreak) (state : σ)
    (chars : List Char) :
    (kinds chars).foldl step (step state .lineBreak) =
      (kinds (chars.dropWhile isLineBreak)).foldl step (step state .lineBreak) := by
  cases chars with
  | nil => rfl
  | cons c rest =>
    by_cases breaks : isLineBreak c = true
    · rw [kinds_lineBreak breaks, foldl_cons, once, dropWhile_cons_of_pos breaks]
    · rw [dropWhile_cons_of_neg breaks]

/-- The pieces of two texts with a line break between them, taken in one after the other. -/
theorem foldl_kinds_append
    (once : ∀ state, step (step state .lineBreak) .lineBreak = step state .lineBreak) (state : σ)
    (front back : List Char) (noFault : ∀ error, .fault error ∉ kinds front) :
    (kinds (front ++ '\n' :: back)).foldl step state =
      (kinds back).foldl step (step ((kinds front).foldl step state) .lineBreak) := by
  have startsBack : ∀ state, (kinds ('\n' :: back)).foldl step state =
      (kinds back).foldl step (step state .lineBreak) := by
    intro state
    rw [kinds_lineBreak rfl, foldl_cons, ← foldl_kinds_dropWhile once]
  induction front using cut_induction generalizing state with
  | nil =>
    rw [nil_append, kinds_nil, foldl_nil]
    exact startsBack state
  | cons c rest ih =>
    obtain ⟨noFaultHere, noFaultRest⟩ := noFault_cut noFault
    replace ih := fun state => ih state noFaultRest
    -- Only a piece of line breaks can run on over the end of the first text.
    by_cases breaks : isLineBreak c = true
    · rw [cut_of_isLineBreak breaks] at ih
      rw [cons_append, kinds_lineBreak breaks, kinds_lineBreak breaks, foldl_cons,
        foldl_cons, ← ih, dropWhile_append]
      split
      next none => rw [List.isEmpty_iff.mp none, nil_append, ← foldl_kinds_dropWhile once]
      next => rfl
    · have cutBefore := cut_append back (Bool.eq_false_iff.mpr breaks) noFaultHere
      rw [cons_append, kinds_cons, kinds_cons, cutBefore, foldl_cons, foldl_cons]
      exact ih _

end Folds

end AutomationScript
