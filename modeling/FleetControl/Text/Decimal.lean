import FleetControl.Text.Binary64

/-!
# Decimal numbers

Digits are read as numbers, and a decimal number is held against the range of double precision.
-/

namespace FleetControl.Text

/-- The number that decimal digits write. -/
def decimal (digits : List Char) : Nat :=
  digits.foldl (fun n c => 10 * n + (c.toNat - 48)) 0

/-- Whether `mantissa * 10 ^ exponent` is beyond double precision. -/
def exceedsDouble (mantissa : Nat) (exponent : Int) : Bool :=
  let order : Int := (Nat.repr mantissa).length + exponent
  if mantissa = 0 || order ≤ 308 then false
  else if 310 < order then true
  else if 0 ≤ exponent then Binary64.limit ≤ mantissa * Nat.pow 10 exponent.toNat
  else Binary64.limit * Nat.pow 10 (-exponent).toNat ≤ mantissa

example : decimal ['0', '4', '2'] = 42 := by decide

end FleetControl.Text
