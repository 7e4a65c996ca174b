import FleetControl.Data.Datum

/-!
# Shapes of records

A `Shape α` lists the fields of a record and says how a value of `α` is built from them. A record
is written with its fields by name, in any order and with others between them, or as a list of
its fields in the order of the shape, where trailing fields may be left out if they have a
default. A field written twice is refused.

Shapes are put together with `<$>` and `<*>`.
-/

namespace FleetControl.Data

/-- Conventions in which notations differ. -/
structure Dialect where
  /-- A record written as a list may have more elements than fields. -/
  surplusElements : Bool
  /-- What may stand beside a word in a record that stands for the word. -/
  isUnit : Datum → Bool

/-- The fields of a record and what is built from them. -/
structure Shape (α : Type) where
  /-- The fields in order, each with what its value has to satisfy. -/
  fields : List (String × (Datum → Except Fault Unit))
  /-- The value of the record, from the values of its fields. -/
  build : (String → Option Datum) → Except Fault α

namespace Shape

/-- A field that must be there. -/
def required {α : Type} (name : String) (decode : Decoder α) : Shape α where
  fields := [(name, fun d => do let _ ← decode d)]
  build find := match find name with
    | some d => decode d
    | none => .error .mismatched

/-- A field with a default. -/
def withDefault {α : Type} (name : String) (decode : Decoder α) (default : α) : Shape α where
  fields := [(name, fun d => do let _ ← decode d)]
  build find := match find name with
    | some d => decode d
    | none => .ok default

/-- A field that may be absent. -/
def optional {α : Type} (name : String) (decode : Decoder α) : Shape (Option α) :=
  withDefault name (.optional decode) none

instance : Applicative Shape where
  pure a := ⟨[], fun _ => .ok a⟩
  seq f x :=
    let x := x ()
    ⟨f.fields ++ x.fields, fun find => do return (← f.build find) (← x.build find)⟩

variable {α : Type} (shape : Shape α)

/-- Go through the entries of a record and collect those that are fields. -/
def collect : List (Option String × Datum) → List (String × Datum) →
    Except Fault (List (String × Datum))
  | [], found => .ok found
  | (none, _) :: _, _ => .error .malformed
  | (some key, d) :: rest, found =>
    match shape.fields.lookup key with
    | some check => do
      if (found.lookup key).isSome then throw .mismatched
      check d
      collect rest (found ++ [(key, d)])
    | none => if d.isSound then collect rest found else .error .malformed

/-- Go through the elements of a record written as a list, beside the fields. -/
def align : List (String × (Datum → Except Fault Unit)) → List Datum →
    Except Fault (List (String × Datum) × List Datum)
  | (name, check) :: fields, d :: rest => do
    check d
    let (found, surplus) ← align fields rest
    return ((name, d) :: found, surplus)
  | _, rest => .ok ([], rest)

/-- Read a record. -/
def decode (dialect : Dialect) : Decoder α
  | .record entries whole => do
    let found ← shape.collect entries []
    if whole then shape.build (fun key => found.lookup key) else throw .malformed
  | .list items whole => do
    let (found, surplus) ← align shape.fields items
    if found.length < shape.fields.length && !whole then throw .malformed
    let a ← shape.build (fun key => found.lookup key)
    if whole && (dialect.surplusElements || surplus.isEmpty) then return a else throw .malformed
  | d => .error d.otherKind

end Shape

/-- One of several words, written as a text or as a record with the word as its only key. -/
def Decoder.variant {α : Type} (dialect : Dialect) (words : List (String × α)) : Decoder α
  | .record entries whole =>
    match entries with
    | [(some key, d)] =>
      match words.lookup key with
      | some a => if dialect.isUnit d && whole then .ok a else .error .mismatched
      | none => .error .mismatched
    | _ => .error .mismatched
  | d => Decoder.word words d

end FleetControl.Data
