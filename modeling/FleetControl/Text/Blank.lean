/-!
# Blank text

A character is white space if it has the Unicode property of that name, and a text is blank if
it has no other characters.
-/

namespace FleetControl.Text

/-- The Unicode property `White_Space`. -/
def isWhiteSpace (c : Char) : Bool :=
  (0x09 ≤ c.toNat && c.toNat ≤ 0x0D) || c.toNat == 0x20 || c.toNat == 0x85 || c.toNat == 0xA0 ||
  c.toNat == 0x1680 || (0x2000 ≤ c.toNat && c.toNat ≤ 0x200A) || c.toNat == 0x2028 ||
  c.toNat == 0x2029 || c.toNat == 0x202F || c.toNat == 0x205F || c.toNat == 0x3000

/-- Nothing but white space. -/
def isBlank (s : String) : Bool := s.toList.all isWhiteSpace

example : isBlank "\t\n\u3000\u00a0\u0085" = true := by decide

example : isBlank "\u200b" = false := by decide

end FleetControl.Text
