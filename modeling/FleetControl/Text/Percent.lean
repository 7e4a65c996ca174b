import FleetControl.Text.Hex

/-!
# Percent-encoding

A text in an address is written as the bytes of its UTF-8 form, each byte as itself or as a
percent sign and two hexadecimal digits. Reading takes a percent sign without two digits as
itself, and refuses bytes that are no UTF-8.

* `encode` writes a text with every byte encoded that is not an unreserved character;
* `decode` reads.
-/

namespace FleetControl.Text.Percent

/-- Characters that stand for themselves in an address: letters, digits, `-`, `.`, `_`, `~`. -/
def isUnreserved (c : Char) : Bool :=
  c.isAlphanum || c == '-' || c == '.' || c == '_' || c == '~'

/-- A byte with its two digits. -/
def encodeByte (b : UInt8) : List Char :=
  ['%', upperHexDigit (b.toNat / 16), upperHexDigit (b.toNat % 16)]

/-- A character as it stands in an address. -/
def encodeChar (c : Char) : List Char :=
  if isUnreserved c then [c] else (String.utf8EncodeChar c).flatMap encodeByte

/-- A text as it stands in an address. -/
def encode (s : String) : List Char := s.toList.flatMap encodeChar

/-- The bytes that a text in an address stands for. -/
def bytes : List Char → List UInt8
  | '%' :: a :: b :: rest =>
    match hexNumber? [a, b] with
    | some n => n.toUInt8 :: bytes rest
    | none => 37 :: bytes (a :: b :: rest)
  | c :: rest => String.utf8EncodeChar c ++ bytes rest
  | [] => []

/-- The text that a text in an address stands for. -/
def decode (written : List Char) : Option String :=
  ((bytes written).toByteArray.utf8Decode?).map fun chars => String.ofList chars.toList

end FleetControl.Text.Percent
