import AutomationScript.Number.Text

/-!
# The signs of numbers

A number has the sign of the numeral that it is read from, whether it is finite or not.
-/

namespace AutomationScript

namespace Number

def isNegative : Number → Bool
  | .finite negative _ _ => negative
  | .infinite negative => negative
  | .notANumber => false

theorem isNegative_nearest (negative : Bool) (num den : Nat) :
    (nearest negative num den).isNegative = negative := by
  unfold nearest
  split
  · rfl
  · dsimp only
    split
    · split <;> rfl
    · split <;> rfl

theorem isNegative_ofNumeral (negative : Bool) (whole fraction : List Char) (power : Int) :
    (ofNumeral negative whole fraction power).isNegative = negative := by
  unfold ofNumeral ofDecimal
  dsimp only
  split
  · rfl
  split
  · rfl
  split
  · rfl
  split
  · exact isNegative_nearest _ _ _
  · exact isNegative_nearest _ _ _

end Number

end AutomationScript
