import FleetControl.Data.Shape

/-!
# TOML tables

A TOML document is a table of items. A table of a document is opened by a header, implied by the
headers of tables in it, or made by dotted keys; that decides what may be added to it later.

* `Table.assign` carries out `key = value`, where the key may be dotted;
* `Table.open` carries out a header `[name]` and `Table.append` a header `[[name]]`;
* `Item.datum` gives the data of an item.
-/

namespace FleetControl.Toml

open Data

/-- What made a table of a document. -/
inductive Origin where
  | header
  | implied
  | dotted
deriving DecidableEq, Inhabited

/-- What stands under a key. -/
inductive Item where
  | text (s : String)
  | integer (i : Int)
  | real
  | bool (b : Bool)
  /-- A date or a time, in its normal form. -/
  | moment (s : String)
  | array (items : List Item)
  /-- A table written between braces. -/
  | inline (entries : List (String × Item))
  /-- A table of the document. -/
  | table (origin : Origin) (entries : List (String × Item))
  /-- The tables of the document that are written under one doubled header. -/
  | tables (elements : List (List (String × Item)))
deriving Inhabited

/-- The items of a table under their keys, in the order they were added. -/
abbrev Table := List (String × Item)

namespace Table

/-- Put another item under a key. -/
def replace (t : Table) (key : String) (item : Item) : Table :=
  t.map fun (k, old) => if k = key then (k, item) else (k, old)

/-- Change the table that a path leads to, which may refuse. Tables that are missing on the way
are made. Dotted keys do not lead into a table with a header of its own, and nothing leads
through a value. -/
def update (dotted : Bool) : List String → (Option Origin → Table → Option Table) →
    Option Origin → Table → Option Table
  | [], change, origin, t => change origin t
  | key :: path, change, _, t =>
    match t.lookup key with
    | none => do
      let made : Origin := if dotted then .dotted else .implied
      let inner ← update dotted path change (some made) []
      return t ++ [(key, .table made inner)]
    | some (.table origin inner) => do
      if dotted && origin == .header then none
      let inner ← update dotted path change (some origin) inner
      return t.replace key (.table origin inner)
    | some (.tables elements) => do
      let last ← elements.getLast?
      let last ← update dotted path change (some .header) last
      return t.replace key (.tables (elements.dropLast ++ [last]))
    | some _ => none

/-- Put an item under a key that is free. -/
def add (t : Table) (key : String) (item : Item) : Option Table :=
  if (t.lookup key).isSome then none else some (t ++ [(key, item)])

/-- Carry out an assignment. A dotted key adds only to a table that dotted keys made. -/
def assign (t : Table) (path : List String) (key : String) (item : Item) : Option Table :=
  t.update true path (fun origin inner =>
    if !path.isEmpty && origin != some .dotted then none else inner.add key item) none

/-- Open the table of a header. -/
def openHeader (key : String) (t : Table) : Option Table :=
  match t.lookup key with
  | none => some (t ++ [(key, .table .header [])])
  | some (.table .implied entries) => some (t.replace key (.table .header entries))
  | some _ => none

/-- Append a table under a doubled header. -/
def appendElement (key : String) (t : Table) : Option Table :=
  match t.lookup key with
  | none => some (t ++ [(key, .tables [[]])])
  | some (.tables elements) => some (t.replace key (.tables (elements ++ [[]])))
  | some _ => none

end Table

/-! ### Data -/

/-- The number that an integer is. -/
def integerDatum : Int → Datum
  | .ofNat n => .number (.natural n)
  | .negSucc n => .number (.negative (n + 1))

/-- The key under which the data of a date or a time is its text. -/
def momentKey : String := "$__toml_private_datetime"

mutual

/-- The data of an item. A date or a time is a record of its text. -/
def Item.datum : Item → Datum
  | .text s => .text (some s)
  | .integer i => integerDatum i
  | .real => .number .real
  | .bool b => .bool b
  | .moment s => .record [(some momentKey, .text (some s))] true
  | .array items => .list (itemData items) true
  | .inline entries => .record (entryData entries) true
  | .table _ entries => .record (entryData entries) true
  | .tables elements => .list (elementData elements) true

/-- The data of the items of an array. -/
def itemData : List Item → List Datum
  | [] => []
  | item :: rest => item.datum :: itemData rest

/-- The data of the items of a table. -/
def entryData : List (String × Item) → List (Option String × Datum)
  | [] => []
  | (key, item) :: rest => (some key, item.datum) :: entryData rest

/-- The data of the tables under a doubled header. -/
def elementData : List (List (String × Item)) → List Datum
  | [] => []
  | t :: rest => .record (entryData t) true :: elementData rest

end

/-- The data of a table. -/
def Table.datum (t : Table) : Datum := .record (entryData t) true

/-- A record written as a list may have more elements than fields, and a word may be the key of
an empty table or an empty array. -/
def dialect : Dialect where
  surplusElements := true
  isUnit d := d matches .record [] true | .list [] true

end FleetControl.Toml
