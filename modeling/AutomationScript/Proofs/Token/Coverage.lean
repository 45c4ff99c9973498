import AutomationScript.Proofs.Token.Layout

/-!
# What token spans cover

The spans of the tokens of a text follow each other.  What they leave out is gaps, and what a
token's span covers is read as that token again.
-/

namespace AutomationScript

open Scanner

theorem ReadsAs.tokenize {t : Token} {taken : List Char} (reads : ReadsAs t taken) :
    tokenize (String.ofList taken) =
      .ok [⟨t, ⟨0, byteSize taken⟩⟩, ⟨.eof, ⟨byteSize taken, byteSize taken⟩⟩] := by
  have different : t ≠ .newline := by
    rintro rfl
    cases reads.isWritten
  simp [AutomationScript.tokenize, reads.alone, faultsOf, streamOf, StreamState.step,
    StreamState.dropNewline, different, utf8ByteSize_ofList]

theorem ReadsAs.ne_nil {t : Token} {taken : List Char} (reads : ReadsAs t taken) : taken ≠ [] := by
  rintro rfl
  have alone := reads.alone
  simp [pieces] at alone

/-- Gaps and tokens in turn, from the offset `start` on. -/
inductive Tiling : (start : Nat) → List Char → List Lexeme → Prop
  | eof {start : Nat} {gap : List Char} (isGap : Gap [] gap) :
      Tiling start gap [⟨.eof, ⟨start + byteSize gap, start + byteSize gap⟩⟩]
  | token {start : Nat} {gap taken rest : List Char} {t : Token} {lexemes : List Lexeme}
      (isGap : Gap (taken ++ rest) gap) (some : taken ≠ []) (inside : t ≠ .eof)
      (reads : t ≠ .newline → ReadsAs t taken)
      (later : Tiling (start + byteSize gap + byteSize taken) rest lexemes) :
      Tiling start (gap ++ (taken ++ rest))
        (⟨t, ⟨start + byteSize gap, start + byteSize gap + byteSize taken⟩⟩ :: lexemes)

theorem Layout.tiling {depth start : Nat} {canEnd : Bool} {chars : List Char}
    {lexemes : List Lexeme} (layout : Layout depth canEnd start chars lexemes) :
    Tiling start chars lexemes := by
  induction layout with
  | eof isGap => exact .eof isGap
  | token isGap reads _ _ ih =>
    refine .token isGap reads.ne_nil ?_ (fun _ => reads) ih
    rintro rfl
    cases reads.isWritten
  | newline isGap some _ _ _ ih =>
    exact .token isGap some Token.noConfusion (fun written => absurd rfl written) ih

namespace Tiling

variable {start : Nat} {chars : List Char} {lexemes : List Lexeme}

theorem start_le (tiling : Tiling start chars lexemes) :
    ∀ lexeme ∈ lexemes, start ≤ lexeme.span.start := by
  induction tiling with
  | eof _ =>
    rintro lexeme (_ | ⟨_, impossible⟩)
    · exact Nat.le_add_right _ _
    · cases impossible
  | token _ _ _ _ _ ih =>
    rintro lexeme (_ | ⟨_, member⟩)
    · exact Nat.le_add_right _ _
    · have := ih lexeme member
      omega

theorem pairwise (tiling : Tiling start chars lexemes) :
    lexemes.Pairwise fun earlier later => earlier.span.stop ≤ later.span.start := by
  induction tiling with
  | eof _ => exact List.pairwise_singleton _ _
  | token _ _ _ _ later ih => exact .cons later.start_le ih

theorem exists_eof (tiling : Tiling start chars lexemes) :
    ∃ tokens, lexemes =
        tokens ++ [⟨.eof, ⟨start + byteSize chars, start + byteSize chars⟩⟩] ∧
      ∀ lexeme ∈ tokens, lexeme.token ≠ .eof := by
  induction tiling with
  | eof _ => exact ⟨[], rfl, fun _ impossible => by cases impossible⟩
  | @token start gap taken rest t _ _ _ inside _ _ ih =>
    obtain ⟨tokens, rfl, insideAll⟩ := ih
    have whole : start + byteSize (gap ++ (taken ++ rest)) =
        start + byteSize gap + byteSize taken + byteSize rest := by
      rw [byteSize_append, byteSize_append]
      omega
    refine ⟨⟨t, _⟩ :: tokens, by rw [whole]; rfl, ?_⟩
    rintro lexeme (_ | ⟨_, member⟩)
    · exact inside
    · exact insideAll lexeme member

/-- A token covers characters of the text, which are read as that token again. -/
theorem exists_taken (tiling : Tiling start chars lexemes) :
    ∀ lexeme ∈ lexemes, ∃ before taken after, chars = before ++ (taken ++ after) ∧
      lexeme.span = ⟨start + byteSize before, start + byteSize (before ++ taken)⟩ ∧
      (lexeme.token ≠ .eof → taken ≠ []) ∧
      (lexeme.token ≠ .newline → lexeme.token ≠ .eof → ReadsAs lexeme.token taken) := by
  induction tiling with
  | @eof start gap _ =>
    rintro lexeme (_ | ⟨_, impossible⟩)
    · exact ⟨gap, [], [], by simp, by simp, absurd rfl, fun _ => absurd rfl⟩
    · cases impossible
  | @token start gap taken rest t _ _ some _ reads _ ih =>
    rintro lexeme (_ | ⟨_, member⟩)
    · refine ⟨gap, taken, rest, rfl, ?_, fun _ => some, fun written _ => reads written⟩
      rw [byteSize_append, Nat.add_assoc]
    · obtain ⟨before, text, after, rfl, isSpan, reads⟩ := ih lexeme member
      refine ⟨gap ++ (taken ++ before), text, after, by simp, ?_, reads⟩
      simp only [isSpan, byteSize_append, Nat.add_assoc]

/-- What no span covers is a gap between tokens. -/
theorem exists_gap (tiling : Tiling start chars lexemes) {offset : Nat}
    (fromStart : start ≤ offset) (inside : offset < start + byteSize chars)
    (uncovered : ∀ lexeme ∈ lexemes, ¬ (lexeme.span.start ≤ offset ∧ offset < lexeme.span.stop)) :
    ∃ before gap after, chars = before ++ (gap ++ after) ∧ Gap after gap ∧
      start + byteSize before ≤ offset ∧ offset < start + byteSize (before ++ gap) ∧
      ∀ lexeme ∈ lexemes, lexeme.span.stop ≤ start + byteSize before ∨
        start + byteSize (before ++ gap) ≤ lexeme.span.start := by
  induction tiling with
  | @eof start gap isGap =>
    refine ⟨[], gap, [], by simp, isGap, fromStart, inside, ?_⟩
    rintro lexeme (_ | ⟨_, impossible⟩)
    · exact .inr (Nat.le_refl _)
    · cases impossible
  | @token start gap taken rest t lexemes isGap _ _ _ later ih =>
    have here := uncovered _ List.mem_cons_self
    have uncovered' := fun lexeme member => uncovered lexeme (List.mem_cons_of_mem _ member)
    rw [byteSize_append, byteSize_append] at inside
    by_cases inGap : offset < start + byteSize gap
    · refine ⟨[], gap, taken ++ rest, rfl, isGap, fromStart, inGap, ?_⟩
      rintro lexeme (_ | ⟨_, member⟩)
      · exact .inr (Nat.le_refl _)
      · have := later.start_le lexeme member
        exact .inr (by rw [List.nil_append]; omega)
    · dsimp only at here
      obtain ⟨before, between, after, rfl, isBetween, fromBefore, toAfter, disjoint⟩ :=
        ih (by omega) (by omega) uncovered'
      refine ⟨gap ++ (taken ++ before), between, after, by simp, isBetween, ?_⟩
      simp only [byteSize_append, ← Nat.add_assoc] at fromBefore toAfter disjoint ⊢
      refine ⟨fromBefore, toAfter, ?_⟩
      rintro lexeme (_ | ⟨_, member⟩)
      · exact .inl (Nat.le_add_right _ _)
      · exact disjoint lexeme member

end Tiling

/-- The stream of a text ends in the one `eof`, at the end of the text.  Spans follow each other
and lie between characters.  The characters of a token are a text of just that token, and every
byte outside of the spans lies in a gap between tokens. -/
theorem spans_cover_source
    {source : String} {lexemes : List Lexeme} (read : tokenize source = .ok lexemes) :
    (∃ tokens, lexemes =
        tokens ++ [⟨.eof, ⟨source.utf8ByteSize, source.utf8ByteSize⟩⟩] ∧
      ∀ lexeme ∈ tokens, lexeme.token ≠ .eof) ∧
    lexemes.Pairwise (fun earlier later => earlier.span.stop ≤ later.span.start) ∧
    (∀ lexeme ∈ lexemes, ∃ before taken after, source.toList = before ++ (taken ++ after) ∧
      lexeme.span = ⟨byteSize before, byteSize (before ++ taken)⟩ ∧
      (lexeme.token ≠ .eof → taken ≠ []) ∧
      (lexeme.token ≠ .newline → lexeme.token ≠ .eof → tokenize (String.ofList taken) =
        .ok [⟨lexeme.token, ⟨0, byteSize taken⟩⟩,
          ⟨.eof, ⟨byteSize taken, byteSize taken⟩⟩])) ∧
    ∀ offset < source.utf8ByteSize,
      (∀ lexeme ∈ lexemes, ¬ (lexeme.span.start ≤ offset ∧ offset < lexeme.span.stop)) →
      ∃ before gap after, source.toList = before ++ (gap ++ after) ∧ Gap after gap ∧
        byteSize before ≤ offset ∧ offset < byteSize (before ++ gap) ∧
        ∀ lexeme ∈ lexemes, lexeme.span.stop ≤ byteSize before ∨
          byteSize (before ++ gap) ≤ lexeme.span.start := by
  have tiling := (layout_tokenize read).tiling
  rw [utf8ByteSize_eq]
  refine ⟨?_, tiling.pairwise, fun lexeme member => ?_, fun offset inside uncovered => ?_⟩
  · simpa only [Nat.zero_add] using tiling.exists_eof
  · obtain ⟨before, taken, after, whole, isSpan, some, reads⟩ := tiling.exists_taken lexeme member
    simp only [Nat.zero_add] at isSpan
    exact ⟨before, taken, after, whole, isSpan, some,
      fun written within => (reads written within).tokenize⟩
  · rw [← Nat.zero_add (byteSize source.toList)] at inside
    simpa only [Nat.zero_add] using tiling.exists_gap (Nat.zero_le _) inside uncovered

theorem spans_cover_source_comment :
    ∃ lexemes, tokenize "a-b = 1.5 -- \"é\"\n\n+ \"//\"" = .ok lexemes ∧
      lexemes.Pairwise (fun earlier later => earlier.span.stop ≤ later.span.start) ∧
      ∃ before gap after,
        "a-b = 1.5 -- \"é\"\n\n+ \"//\"".toList = before ++ (gap ++ after) ∧ Gap after gap ∧
        byteSize before ≤ 15 ∧ 15 < byteSize (before ++ gap) := by
  let lexemes : List Lexeme := [⟨.ident "a-b", ⟨0, 3⟩⟩, ⟨.eq, ⟨4, 5⟩⟩,
    ⟨.number (Number.ofNumeral false ['1'] ['5'] 0), ⟨6, 9⟩⟩, ⟨.plus, ⟨19, 20⟩⟩,
    ⟨.string "//", ⟨21, 25⟩⟩, ⟨.eof, ⟨25, 25⟩⟩]
  have read : tokenize "a-b = 1.5 -- \"é\"\n\n+ \"//\"" = .ok lexemes := by
    decide +kernel
  obtain ⟨-, ordered, -, covered⟩ := spans_cover_source read
  obtain ⟨before, gap, after, whole, isGap, fromBefore, toAfter, -⟩ :=
    covered 15 (by decide +kernel) (by decide)
  exact ⟨lexemes, read, ordered, before, gap, after, whole, isGap, fromBefore, toAfter⟩

end AutomationScript
