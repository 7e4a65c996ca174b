/-!
# The range of double precision

A number of double precision has 53 significant binary digits, and what is rounded beyond the
largest of them is infinite. `roundToPrecision` rounds to those digits, and `exceedsRounded` tells
whether a product is infinite whose factors are rounded before they are multiplied. That is not the
same as rounding the exact product: `17976931348623158 * 10 ^ 292` is below `limit`, and the product
of the rounded factors is not.
-/

namespace FleetControl.Text.Binary64

/-- Number of significant binary digits. -/
def precision : Nat := 53

/-- The least number that is rounded to infinity. -/
def limit : Nat := 1 <<< 1024 - 1 <<< 970

/-- The nearest multiple of a unit; a tie goes to the even multiple. -/
def roundToUnit (unit n : Nat) : Nat :=
  let below := n / unit
  let rest := 2 * (n % unit)
  if rest < unit || (rest == unit && below % 2 == 0) then unit * below else unit * (below + 1)

/-- The nearest number with at most `precision` significant binary digits. -/
def roundToPrecision (n : Nat) : Nat := roundToUnit (1 <<< (n.log2 + 1 - precision)) n

/-- The largest power of ten that is a factor of its own. -/
def maxPower : Nat := 308

/-- Whether `significand * 10 ^ exponent` is infinite when both factors are rounded first. -/
def exceedsRounded (significand : Nat) (exponent : Int) : Bool :=
  significand != 0 && 0 ≤ exponent &&
    (maxPower < exponent ||
      limit ≤ roundToPrecision significand * roundToPrecision (Nat.pow 10 exponent.toNat))

theorem roundToUnit_one (n : Nat) : roundToUnit 1 n = n := by
  simp [roundToUnit, Nat.mod_one]

/-- A number that is short enough stays what it is. -/
theorem roundToPrecision_of_lt {n : Nat} (h : n.log2 < precision) : roundToPrecision n = n := by
  have : n.log2 + 1 - precision = 0 := by omega
  rw [roundToPrecision, this, Nat.shiftLeft_zero, roundToUnit_one]

example : roundToPrecision (2 ^ 53 + 1) = 2 ^ 53 := by decide +kernel

example : roundToPrecision (2 ^ 53 + 3) = 2 ^ 53 + 4 := by decide +kernel

example : exceedsRounded 17976931348623157 292 = false := by decide +kernel

example : exceedsRounded 17976931348623158 292 = true ∧ 17976931348623158 * 10 ^ 292 < limit := by
  decide +kernel

end FleetControl.Text.Binary64
