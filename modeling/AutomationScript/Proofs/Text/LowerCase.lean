import AutomationScript.Text.LowerCase

/-!
# Lower case is final

A text in lower case has no character left that lower-casing changes, wherever it stood in its word.
-/

namespace AutomationScript

open List

/-- Lower-casing leaves the character alone, whatever stands around it. -/
def IsLower (c : Char) : Prop :=
  c ≠ 'İ' ∧ lowerCaseChar c = c

instance : DecidablePred IsLower := fun _ =>
  inferInstanceAs (Decidable (_ ∧ _))

/-- The codes that a range leads to are codes of characters, none of them a capital I with a dot. -/
theorem lowerCaseRanges_valid : ∀ range ∈ lowerCaseRanges,
    0 ≤ range.1 + range.2.2.2 ∧
      (range.2.1 + range.2.2.2 < 0x130 ∨
        0x130 < range.1 + range.2.2.2 ∧ range.2.1 + range.2.2.2 < 0xD800 ∨
        0xDFFF < range.1 + range.2.2.2 ∧ range.2.1 + range.2.2.2 < 0x110000) := by
  decide +kernel

/-- Whether the codes that a range leads to stand before the other range, after it, or between its
codes. -/
def leadsPast (range other : Nat × Nat × Nat × Int) : Bool :=
  let first := (range.1 + range.2.2.2).toNat
  Nat.blt other.2.1 first || Nat.blt (range.2.1 + range.2.2.2).toNat other.1 ||
    (range.2.2.1 == 2 || range.1 == range.2.1) && other.2.2.1 == 2 && (first + other.1) % 2 == 1

theorem lowerCaseRanges_leadsPast :
    (lowerCaseRanges.all fun range => lowerCaseRanges.all (leadsPast range)) = true := by
  decide +kernel

theorem isLower_lowerCaseChar {c : Char} (notDotted : c ≠ 'İ') : IsLower (lowerCaseChar c) := by
  rw [lowerCaseChar]
  dsimp only
  split
  · next first last step shift found =>
      have isRange := mem_of_find?_eq_some found
      have inside := find?_some found
      simp only [Bool.and_eq_true, decide_eq_true_eq, beq_iff_eq] at inside
      obtain ⟨⟨above, below⟩, steps⟩ := inside
      obtain ⟨notNegative, isCode⟩ := lowerCaseRanges_valid _ isRange
      dsimp only at notNegative isCode
      have code : (Char.ofNat (c.toNat + shift).toNat).toNat = (c.toNat + shift).toNat := by
        have valid : (c.toNat + shift).toNat.isValidChar := by
          unfold Nat.isValidChar
          omega
        rw [Char.ofNat, dif_pos valid]
        rfl
      constructor
      · intro isDotted
        have dotted : 'İ'.toNat = 0x130 := rfl
        rw [isDotted, dotted] at code
        omega
      · rw [lowerCaseChar, find?_eq_none.mpr]
        rintro ⟨otherFirst, otherLast, otherStep, _⟩ isOther
        have past := all_eq_true.mp (all_eq_true.mp lowerCaseRanges_leadsPast _ isRange)
          _ isOther
        rw [code]
        simp only [leadsPast, Nat.blt_eq, Bool.or_eq_true, Bool.and_eq_true, decide_eq_true_eq,
          beq_iff_eq] at past ⊢
        rintro ⟨⟨otherAbove, otherBelow⟩, otherSteps⟩
        rcases past with (before | behind) | ⟨⟨rfl | rfl, rfl⟩, between⟩ <;> omega
  · next notFound =>
      refine ⟨notDotted, ?_⟩
      rw [lowerCaseChar, notFound]

theorem isLower_of_mem_lowerCaseAfter {before chars : List Char} {c : Char}
    (member : c ∈ lowerCaseAfter before chars) : IsLower c := by
  induction chars generalizing before with
  | nil => cases member
  | cons first rest ih =>
    rw [lowerCaseAfter] at member
    rcases mem_append.mp member with here | later
    · split at here
      · split at here <;> obtain rfl := mem_singleton.mp here <;> decide +kernel
      · split at here
        · rcases mem_cons.mp here with rfl | here
          · decide +kernel
          · obtain rfl := mem_singleton.mp here
            decide +kernel
        · next notDotted =>
            obtain rfl := mem_singleton.mp here
            exact isLower_lowerCaseChar notDotted
    · exact ih later

theorem lowerCaseAfter_of_isLower (before : List Char) {chars : List Char}
    (lower : ∀ c ∈ chars, IsLower c) : lowerCaseAfter before chars = chars := by
  induction chars generalizing before with
  | nil => rfl
  | cons c rest ih =>
    obtain ⟨⟨notDotted, same⟩, others⟩ := forall_mem_cons.mp lower
    have notSigma : c ≠ 'Σ' := by
      rintro rfl
      exact absurd same (by decide +kernel)
    rw [lowerCaseAfter, if_neg notSigma, if_neg notDotted, same, ih _ others]
    rfl

theorem lowerCase_lowerCase (text : String) : lowerCase (lowerCase text) = lowerCase text := by
  rw [lowerCase, lowerCase, String.toList_ofList]
  exact congrArg String.ofList
    (lowerCaseAfter_of_isLower [] fun _ member => isLower_of_mem_lowerCaseAfter member)

end AutomationScript
