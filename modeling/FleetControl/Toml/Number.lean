import FleetControl.Text.Decimal
import FleetControl.Text.Hex
import FleetControl.Toml.Item

/-!
# Numbers in TOML

Integers have 64 bits with sign; they are written in decimal digits, or with a letter for another
base and without sign. Underscores may stand between digits. Of real numbers only that they are
real is kept.
-/

namespace FleetControl.Toml.Number

open Text

/-- Digits, each after the first with an underscore before it or none. -/
def digitsOn (isDigit : Char → Bool) : List Char → List Char × List Char
  | [] => ([], [])
  | '_' :: c :: rest =>
    if isDigit c then
      let (ds, rest) := digitsOn isDigit rest
      (c :: ds, rest)
    else ([], '_' :: c :: rest)
  | c :: rest =>
    if isDigit c then
      let (ds, rest) := digitsOn isDigit rest
      (c :: ds, rest)
    else ([], c :: rest)

/-- Digits, at least one. -/
def digits (isDigit : Char → Bool) : List Char → Option (List Char × List Char)
  | [] => none
  | c :: rest =>
    if isDigit c then
      let (ds, rest) := digitsOn isDigit rest
      some (c :: ds, rest)
    else none

/-- The integers of 64 bits. -/
def inRange (i : Int) : Bool := Int64.minValue.toInt ≤ i && i ≤ Int64.maxValue.toInt

/-- An integer, if it has 64 bits. -/
def integer? (i : Int) : Option Item := if inRange i then some (.integer i) else none

/-- A sign, if there is one, and whether it is a minus. -/
def sign : List Char → Bool × List Char
  | '-' :: rest => (true, rest)
  | '+' :: rest => (false, rest)
  | cs => (false, cs)

/-- Decimal digits without a zero in front. -/
def wholePart : List Char → Option (List Char × List Char)
  | '0' :: rest => some (['0'], rest)
  | cs => digits Char.isDigit cs

/-- The number in a base, after its letter. -/
def inBase (base : Nat) (cs : List Char) : Option (Item × List Char) := do
  let isDigit := fun c => (hexDigit? c).any (· < base)
  let (ds, rest) ← digits isDigit cs
  let n := ds.foldl (fun n c => base * n + (hexDigit? c).getD 0) 0
  return (← integer? n, rest)

/-- A point and digits. -/
def fraction : List Char → Option (List Char × List Char)
  | '.' :: rest => digits Char.isDigit rest
  | _ => none

/-- An exponent. -/
def exponent : List Char → Option (Int × List Char)
  | c :: rest =>
    if c = 'e' || c = 'E' then do
      let (negative, rest) := sign rest
      let (ds, rest) ← digits Char.isDigit rest
      return (if negative then -(decimal ds : Int) else decimal ds, rest)
    else none
  | [] => none

/-- A real number, unless it is beyond double precision from above. -/
def real? (negative : Bool) (mantissa : Nat) (exponent : Int) : Option Item :=
  if !negative && exceedsDouble mantissa exponent then none else some .real

/-- A decimal number. -/
def decimalNumber (cs : List Char) : Option (Item × List Char) := do
  let (negative, unsigned) := sign cs
  match unsigned with
  | 'i' :: 'n' :: 'f' :: rest => return (.real, rest)
  | 'n' :: 'a' :: 'n' :: rest => return (.real, rest)
  | _ =>
    let (whole, rest) ← wholePart unsigned
    match fraction rest with
    | some (part, rest) =>
      let mantissa := decimal (whole ++ part)
      match exponent rest with
      | some (e, rest) => return (← real? negative mantissa (e - part.length), rest)
      | none => return (← real? negative mantissa (-part.length), rest)
    | none =>
      match exponent rest with
      | some (e, rest) => return (← real? negative (decimal whole) e, rest)
      | none =>
        let i : Int := if negative then -(decimal whole : Int) else decimal whole
        return (← integer? i, rest)

/-- A number at the front of a text. -/
def read : List Char → Option (Item × List Char)
  | '0' :: 'x' :: rest => inBase 16 rest
  | '0' :: 'o' :: rest => inBase 8 rest
  | '0' :: 'b' :: rest => inBase 2 rest
  | cs => decimalNumber cs

end FleetControl.Toml.Number
