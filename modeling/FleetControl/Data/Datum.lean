import FleetControl.SortedMap

/-!
# Data read from a document

A document of any notation is read into a `Datum`, and a `Decoder` makes a value of the domain
from it. A fault of notation does not lose what stands before it: the part that cannot be read is
a `broken` leaf, and every list and record around it is not `whole`. So a decoder, which goes
through the datum in the order of the text, meets the first of several faults first, be it one of
notation (`malformed`) or one of meaning (`mismatched`).
-/

namespace FleetControl.Data

/-- A number as a document writes it. -/
inductive Numeral where
  /-- A whole number without a sign. -/
  | natural (n : Nat)
  /-- The negative of a whole number, which is not zero. -/
  | negative (n : Nat)
  /-- A number with a fraction or an exponent, or minus zero. -/
  | real
  /-- A number beyond the range of double precision. -/
  | huge
deriving DecidableEq, Inhabited

/-- A value read from a document. -/
inductive Datum where
  | null
  | bool (b : Bool)
  | number (n : Numeral)
  /-- A text; none if it names half of a surrogate pair. -/
  | text (s : Option String)
  /-- Items in order, and whether the list was read to its end. -/
  | list (items : List Datum) (whole : Bool)
  /-- Entries in order, and whether the record was read to its end. -/
  | record (entries : List (Option String × Datum)) (whole : Bool)
  /-- What cannot be read. -/
  | broken
deriving Inhabited

/-- Why a document does not give the value asked for. -/
inductive Fault where
  /-- The notation is broken. -/
  | malformed
  /-- The notation is right, and the value is another one. -/
  | mismatched
deriving DecidableEq, Inhabited

/-- A reading of data as values of a type. -/
abbrev Decoder (α : Type) := Datum → Except Fault α

namespace Datum

/-- The notation of a value that nobody looks into is right. -/
def isSound : Datum → Bool
  | .list _ whole => whole
  | .record _ whole => whole
  | .broken => false
  | _ => true

/-- The fault of a value that is not of the kind asked for. A list or record shows its kind
before its end, anything else has to be read first. -/
def otherKind : Datum → Fault
  | .broken => .malformed
  | .number .huge => .malformed
  | .text none => .malformed
  | _ => .mismatched

end Datum

/-- Accept only what was read to its end. -/
def ensureWhole {α : Type} (whole : Bool) (a : α) : Except Fault α :=
  if whole then .ok a else .error .malformed

namespace Decoder

/-- A text. -/
def text : Decoder String
  | .text (some s) => .ok s
  | d => .error d.otherKind

/-- A truth value. -/
def bool : Decoder Bool
  | .bool b => .ok b
  | d => .error d.otherKind

/-- A whole number below a bound. -/
def below (bound : Nat) : Decoder Nat
  | .number (.natural n) => if n < bound then .ok n else .error .mismatched
  | d => .error d.otherKind

/-- A word of 16 bits. -/
def word16 : Decoder UInt16 := fun d => Nat.toUInt16 <$> below UInt16.size d

/-- A word of 32 bits. -/
def word32 : Decoder UInt32 := fun d => Nat.toUInt32 <$> below UInt32.size d

/-- A word of 64 bits. -/
def word64 : Decoder UInt64 := fun d => Nat.toUInt64 <$> below UInt64.size d

/-- A value that may be absent: `null` stands for none. -/
def optional {α : Type} (decode : Decoder α) : Decoder (Option α)
  | .null => .ok none
  | d => some <$> decode d

/-- A list of values. -/
def list {α : Type} (decode : Decoder α) : Decoder (List α)
  | .list items whole => do ensureWhole whole (← items.mapM decode)
  | d => .error d.otherKind

/-- An entry of a map. -/
def entry {α : Type} (decode : Decoder α) : Option String × Datum → Except Fault (String × α)
  | (some key, d) => do return (key, ← decode d)
  | (none, _) => .error .malformed

/-- A map from texts; of entries with one key the last counts. -/
def map {α : Type} (decode : Decoder α) : Decoder (SortedMap String α)
  | .record entries whole => do
    let read ← entries.mapM (entry decode)
    ensureWhole whole (SortedMap.ofList read)
  | d => .error d.otherKind

/-- One of several words. -/
def word {α : Type} (words : List (String × α)) : Decoder α := fun d => do
  let s ← text d
  match words.lookup s with
  | some a => return a
  | none => throw .mismatched

end Decoder

end FleetControl.Data
