import Mathlib.Algebra.Order.Field.Rat
import Mathlib.Tactic.FieldSimp
import Mathlib.Tactic.NormNum
import AutomationScript.Proofs.Number.Sign

/-!
# The values of numbers

A finite number stands for a fraction, and it is converted to an integer exactly if the fraction is
one (`Number.toInt?_eq_some_iff`).
-/

namespace AutomationScript

namespace Number

/-- The fraction that a number stands for, if it is finite. -/
def value? : Number → Option ℚ
  | .finite negative significand exponent =>
    let magnitude : ℚ := significand * 2 ^ exponent
    some (if negative then -magnitude else magnitude)
  | _ => none

/-! ## Integers -/

section Magnitude

variable {significand : Nat} {exponent : Int}

theorem isIntegral_neg_iff (k : Nat) (positive : 0 < k) :
    isIntegral significand (-k) = true ↔ 2 ^ k ∣ significand := by
  have notZero : k ≠ 0 := by
    omega
  rw [isIntegral, neg_neg, Int.toNat_natCast]
  simp [notZero, Nat.dvd_iff_mod_eq_zero]

theorem cast_truncatedMagnitude (integral : isIntegral significand exponent = true) :
    (truncatedMagnitude significand exponent : ℚ) = significand * 2 ^ exponent := by
  by_cases whole : 0 ≤ exponent
  · obtain ⟨k, rfl⟩ := Int.eq_ofNat_of_zero_le whole
    rw [truncatedMagnitude, if_pos whole]
    simp
  · obtain ⟨k, rfl⟩ : ∃ k : Nat, exponent = -k := ⟨exponent.natAbs, by omega⟩
    obtain ⟨quotient, rfl⟩ := (isIntegral_neg_iff k (by omega)).mp integral
    have cut : truncatedMagnitude (2 ^ k * quotient) (-k) = quotient := by
      rw [truncatedMagnitude, if_neg whole, neg_neg, Int.toNat_natCast]
      exact Nat.mul_div_cancel_left quotient (Nat.two_pow_pos k)
    rw [cut, zpow_neg, zpow_natCast]
    push_cast
    field_simp

theorem isIntegral_of_eq {n : Int} (same : (significand : ℚ) * 2 ^ exponent = n) :
    isIntegral significand exponent = true := by
  by_cases whole : 0 ≤ exponent
  · simp [isIntegral, whole]
  · obtain ⟨k, rfl⟩ : ∃ k : Nat, exponent = -k := ⟨exponent.natAbs, by omega⟩
    rw [isIntegral_neg_iff k (by omega)]
    have multiple : (significand : ℚ) = n * 2 ^ k := by
      rw [← same, zpow_neg, zpow_natCast]
      field_simp
    have divides : ((2 ^ k : Nat) : Int) ∣ significand := by
      refine ⟨n, ?_⟩
      have cast : ((significand : Int) : ℚ) = ((2 ^ k : Nat) * n : Int) := by
        push_cast
        rw [multiple, mul_comm]
      exact_mod_cast cast
    exact_mod_cast divides

end Magnitude

/-- A number is an integer if the fraction that it stands for is one. -/
theorem toInt?_eq_some_iff {x : Number} {n : Int} :
    x.toInt? = some n ↔ x.value? = some (n : ℚ) := by
  cases x with
  | infinite negative => simp [toInt?, value?]
  | notANumber => simp [toInt?, value?]
  | finite negative significand exponent =>
    by_cases integral : isIntegral significand exponent = true
    · have value := cast_truncatedMagnitude integral
      cases negative with
      | false =>
        have opened : toInt? (.finite false significand exponent) =
            some (truncatedMagnitude significand exponent : Int) := if_pos integral
        simp only [opened, value?, Bool.false_eq_true, if_false, Option.some.injEq, ← value]
        norm_cast
      | true =>
        have opened : toInt? (.finite true significand exponent) =
            some (-(truncatedMagnitude significand exponent : Int)) := if_pos integral
        simp only [opened, value?, if_true, Option.some.injEq, ← value]
        norm_cast
    · have noInt : toInt? (.finite negative significand exponent) = none := if_neg integral
      rw [noInt]
      constructor
      · intro impossible
        cases impossible
      · intro isInt
        refine absurd ?_ integral
        cases negative with
        | false => exact isIntegral_of_eq (Option.some.inj isInt)
        | true =>
          have same := Option.some.inj isInt
          rw [if_pos rfl] at same
          refine isIntegral_of_eq (n := -n) ?_
          rw [Int.cast_neg, ← same, neg_neg]

theorem toInt64_of_toInt? {x : Number} {n : Int} (isInt : x.toInt? = some n)
    (inRange : n.natAbs < Nat.pow 2 63) : x.toInt64 = n := by
  cases x with
  | infinite negative => cases isInt
  | notANumber => cases isInt
  | finite negative significand exponent =>
    have cut : toInt64 (.finite negative significand exponent) =
        max (-int64Limit) (min n (int64Limit - 1)) := by
      by_cases integral : isIntegral significand exponent = true
      · rw [toInt?, if_pos integral] at isInt
        rw [← Option.some.inj isInt, toInt64]
      · rw [toInt?, if_neg integral] at isInt
        cases isInt
    have limit : int64Limit = (Nat.pow 2 63 : Nat) := rfl
    rw [cut, limit]
    omega

theorem nonneg_of_toInt? {x : Number} {n : Int} (unsigned : x.isNegative = false)
    (isInt : x.toInt? = some n) : 0 ≤ n := by
  cases x with
  | infinite negative => cases isInt
  | notANumber => cases isInt
  | finite negative significand exponent =>
    cases unsigned
    rw [toInt?] at isInt
    split at isInt
    · rw [← Option.some.inj isInt]
      exact Int.natCast_nonneg _
    · cases isInt

end Number

end AutomationScript
