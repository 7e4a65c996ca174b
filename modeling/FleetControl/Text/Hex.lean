/-!
# Hexadecimal numbers

Digits of either case are read; numbers are written with upper-case digits and a fixed width.
-/

namespace FleetControl.Text

/-- The value of a hexadecimal digit. -/
def hexDigit? (c : Char) : Option Nat :=
  if '0' ≤ c ∧ c ≤ '9' then some (c.toNat - 48)
  else if 'a' ≤ c ∧ c ≤ 'f' then some (c.toNat - 87)
  else if 'A' ≤ c ∧ c ≤ 'F' then some (c.toNat - 55)
  else none

/-- The number that digits write, the first being the most significant. -/
def hexNumber? (digits : List Char) : Option Nat :=
  digits.foldlM (fun n c => (hexDigit? c).map (16 * n + ·)) 0

/-- The character with a code, if the code is one of a character. -/
def charOfCode? (n : Nat) : Option Char :=
  if h : n.isValidChar then some (Char.ofNatAux n h) else none

/-- An upper-case digit. -/
def upperHexDigit (n : Nat) : Char := (Nat.digitChar n).toUpper

/-- Four digits for a number below `2 ^ 16`. -/
def fourHexDigits (n : Nat) : List Char :=
  [upperHexDigit (n / 4096 % 16), upperHexDigit (n / 256 % 16), upperHexDigit (n / 16 % 16),
    upperHexDigit (n % 16)]

example : hexNumber? ['1', 'f', 'A'] = some 506 := by decide

example : hexNumber? ['g'] = none := by decide

example : fourHexDigits 127 = ['0', '0', '7', 'F'] := by decide

end FleetControl.Text
