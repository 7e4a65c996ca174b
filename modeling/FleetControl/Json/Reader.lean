import FleetControl.Data.Shape
import FleetControl.Text.Decimal
import FleetControl.Text.Hex

/-!
# Reading JSON

`Reader.value` reads a value at the front of a text and never fails: what cannot be read is left
in the datum as a broken leaf, inside lists and records that are not whole, and nothing after it
is looked at. `Reader.decode` reads a text as a value of a type, with nothing but space around it.
-/

namespace FleetControl.Json.Reader

open Data Text

/-- Space between the parts of a value. -/
def isSpace (c : Char) : Bool := c == ' ' || c == '\n' || c == '\t' || c == '\r'

/-- The text without the space in front. -/
def skipSpace (cs : List Char) : List Char := cs.dropWhile isSpace

/-! ### Texts -/

/-- A character of a string literal, or a code that an escape gives. -/
inductive Piece where
  | char (c : Char)
  | code (n : Nat)
deriving DecidableEq

/-- The character that a one-letter escape stands for. -/
def simpleEscape? : Char → Option Char
  | '"' => some '"'
  | '\\' => some '\\'
  | '/' => some '/'
  | 'b' => some '\x08'
  | 'f' => some '\x0c'
  | 'n' => some '\n'
  | 'r' => some '\r'
  | 't' => some '\t'
  | _ => none

/-- The pieces of a string literal up to the closing quote, and what follows it. -/
def pieces : List Char → Option (List Piece × List Char)
  | [] => none
  | '"' :: rest => some ([], rest)
  | '\\' :: 'u' :: a :: b :: c :: d :: rest => do
    let n ← hexNumber? [a, b, c, d]
    let (ps, rest) ← pieces rest
    return (.code n :: ps, rest)
  | '\\' :: c :: rest => do
    let e ← simpleEscape? c
    let (ps, rest) ← pieces rest
    return (.char e :: ps, rest)
  | c :: rest => do
    if c.toNat < 32 || c == '\\' then none
    let (ps, rest) ← pieces rest
    return (.char c :: ps, rest)

/-- The first half of a surrogate pair. -/
def isHighSurrogate (n : Nat) : Bool := 0xD800 ≤ n && n ≤ 0xDBFF

/-- The second half of a surrogate pair. -/
def isLowSurrogate (n : Nat) : Bool := 0xDC00 ≤ n && n ≤ 0xDFFF

/-- The character of a surrogate pair. -/
def joinSurrogates (high low : Nat) : Option Char :=
  charOfCode? (0x10000 + (high - 0xD800) * 0x400 + (low - 0xDC00))

/-- The characters of a string literal; none if half of a surrogate pair stands alone. -/
def assemble : List Piece → Option (List Char)
  | [] => some []
  | .char c :: rest => (c :: ·) <$> assemble rest
  | .code n :: .code m :: rest =>
    if isHighSurrogate n && isLowSurrogate m then do
      return (← joinSurrogates n m) :: (← assemble rest)
    else do return (← charOfCode? n) :: (← assemble (.code m :: rest))
  | .code n :: rest => do return (← charOfCode? n) :: (← assemble rest)

/-! ### Numbers -/

/-- Digits in front of a text, at least one. -/
def digits1 (cs : List Char) : Option (List Char × List Char) :=
  match cs.span Char.isDigit with
  | ([], _) => none
  | parts => some parts

/-- The digits after a point, none without a point. -/
def fraction : List Char → Option (Option (List Char) × List Char)
  | '.' :: rest => do
    let (ds, rest) ← digits1 rest
    return (some ds, rest)
  | cs => some (none, cs)

/-- A decimal exponent, none if there is none. -/
def exponent : List Char → Option (Option Int × List Char)
  | c :: rest =>
    if c == 'e' || c == 'E' then
      match rest with
      | '-' :: rest => do
        let (ds, rest) ← digits1 rest
        return (some (-(decimal ds : Int)), rest)
      | '+' :: rest => do
        let (ds, rest) ← digits1 rest
        return (some (decimal ds : Int), rest)
      | _ => do
        let (ds, rest) ← digits1 rest
        return (some (decimal ds : Int), rest)
    else some (none, c :: rest)
  | [] => some (none, [])

/-- Add digits to a number while it fits into 64 bits; gives the number and how many were added. -/
def addDigits (n : Nat) : List Char → Nat × Nat
  | [] => (n, 0)
  | c :: rest =>
    let next := decimal [c] + 10 * n
    if next < UInt64.size then
      let (n, added) := addDigits next rest
      (n, added + 1)
    else (n, 0)

/-- The significand and the exponent of ten that a number is evaluated from. The significand takes
the digits that fit into 64 bits; a further whole digit counts as a power of ten, and a further
digit of the fraction does not count. -/
def scientific (whole fraction : List Char) (exponent : Int) : Nat × Int :=
  let (n, wholeAdded) := addDigits 0 whole
  let (n, fractionAdded) := addDigits n fraction
  (n, exponent + (whole.length - wholeAdded : Nat) - fractionAdded)

/-- The number that a sign, digits, a fraction and an exponent write. -/
def classify (negative : Bool) (whole : List Char) (frac : Option (List Char))
    (exp : Option Int) : Numeral :=
  let (significand, power) := scientific whole (frac.getD []) (exp.getD 0)
  if Binary64.exceedsRounded significand power then .huge
  else if frac.isSome || exp.isSome then .real
  else if !negative then .natural (decimal whole)
  else if decimal whole = 0 then .real
  else .negative (decimal whole)

/-- A number without its sign. -/
def unsigned (negative : Bool) (cs : List Char) : Option (Numeral × List Char) := do
  let (whole, rest) ← digits1 cs
  if whole.head? == some '0' && whole.length != 1 then none
  let (frac, rest) ← fraction rest
  let (exp, rest) ← exponent rest
  return (classify negative whole frac exp, rest)

/-- A number. -/
def number : List Char → Option (Numeral × List Char)
  | '-' :: rest => unsigned true rest
  | cs => unsigned false cs

/-! ### Values -/

/-- A broken leaf; nothing after it is read. -/
def fault : Datum × List Char := (.broken, [])

/-- A literal that is a text. -/
def textValue (cs : List Char) : Datum × List Char :=
  match pieces cs with
  | some (ps, rest) => (.text ((assemble ps).map String.ofList), rest)
  | none => fault

/-- A value that starts with none of the characters `"`, `[` and the opening brace. -/
def bareValue (cs : List Char) : Datum × List Char :=
  match cs with
  | 'n' :: 'u' :: 'l' :: 'l' :: rest => (.null, rest)
  | 't' :: 'r' :: 'u' :: 'e' :: rest => (.bool true, rest)
  | 'f' :: 'a' :: 'l' :: 's' :: 'e' :: rest => (.bool false, rest)
  | _ =>
    match number cs with
    | some (n, rest) => (.number n, rest)
    | none => fault

mutual

/-- A value, after space, nested at most `fuel` deep. -/
def value : Nat → List Char → Datum × List Char
  | 0, _ => fault
  | fuel + 1, cs =>
    match skipSpace cs with
    | '"' :: rest => textValue rest
    | '[' :: rest =>
      match skipSpace rest with
      | ']' :: rest => (.list [] true, rest)
      | rest =>
        let (ds, whole, rest) := items fuel rest
        (.list ds whole, rest)
    | '\x7b' :: rest =>
      match skipSpace rest with
      | '\x7d' :: rest => (.record [] true, rest)
      | rest =>
        let (es, whole, rest) := entries fuel rest
        (.record es whole, rest)
    | cs => bareValue cs

/-- The items of a list, whether its end was found, and what follows. -/
def items : Nat → List Char → List Datum × Bool × List Char
  | 0, _ => ([], false, [])
  | fuel + 1, cs =>
    let (d, rest) := value fuel cs
    match skipSpace rest with
    | ',' :: rest =>
      let (ds, whole, rest) := items fuel rest
      (d :: ds, whole, rest)
    | ']' :: rest => ([d], true, rest)
    | _ => ([d], false, [])

/-- The entries of a record, whether its end was found, and what follows. -/
def entries : Nat → List Char → List (Option String × Datum) × Bool × List Char
  | 0, _ => ([], false, [])
  | fuel + 1, cs =>
    match skipSpace cs with
    | '"' :: rest =>
      match pieces rest with
      | none => ([], false, [])
      | some (ps, rest) =>
        let key := (assemble ps).map String.ofList
        match skipSpace rest with
        | ':' :: rest =>
          let (d, rest) := value fuel rest
          match skipSpace rest with
          | ',' :: rest =>
            let (es, whole, rest) := entries fuel rest
            ((key, d) :: es, whole, rest)
          | '\x7d' :: rest => ([(key, d)], true, rest)
          | _ => ([(key, d)], false, [])
        | _ => ([(key, .broken)], false, [])
    | _ => ([], false, [])

end

/-- The value at the front of a text and what follows. Every step of reading takes a character,
so twice the length of the text is fuel enough. -/
def front (cs : List Char) : Datum × List Char := value (2 * cs.length + 2) cs

/-- Read a text as a value of a type. -/
def decode {α : Type} (decoder : Decoder α) (text : String) : Except Fault α := do
  let (d, rest) := front text.toList
  let a ← decoder d
  ensureWhole (skipSpace rest).isEmpty a

/-- JSON has no surplus elements, and a word may be the key of a `null`. -/
def dialect : Dialect where
  surplusElements := false
  isUnit d := d matches .null

end FleetControl.Json.Reader
