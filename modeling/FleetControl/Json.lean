/-!
# JSON values

A `Json` is a value to be printed; `Json.compress` prints it without spaces. Reading JSON is the
work of `FleetControl.Json.Reader`, which gives data with their faults.
-/

namespace FleetControl

/-- A JSON value. -/
inductive Json where
  | null
  | bool (b : Bool)
  | number (n : Nat)
  | text (s : String)
  | list (items : List Json)
  | object (fields : List (String × Json))
deriving Inhabited

namespace Json

/-- The text of an optional value, `null` for none. -/
def ofOption {α : Type} (encode : α → Json) : Option α → Json
  | some a => encode a
  | none => .null

/-- A list of texts. -/
def texts (ss : List String) : Json := .list (ss.map .text)

/-- The fields of an object, none for other values. -/
def fields : Json → List (String × Json)
  | .object fs => fs
  | _ => []

/-- An object with further fields. -/
def extend (j : Json) (more : List (String × Json)) : Json := .object (j.fields ++ more)

/-- The escape of a character in a string literal, if it cannot stand for itself. -/
def escapeChar (c : Char) : List Char :=
  if c = '"' then ['\\', '"']
  else if c = '\\' then ['\\', '\\']
  else if c.toNat < 32 then
    ['\\', 'u', '0', '0', Nat.digitChar (c.toNat / 16), Nat.digitChar (c.toNat % 16)]
  else [c]

/-- A string literal. -/
def quote (s : String) : String := "\"" ++ String.ofList (s.toList.flatMap escapeChar) ++ "\""

mutual

/-- The value on one line, without spaces. -/
def compress : Json → String
  | .null => "null"
  | .bool b => if b then "true" else "false"
  | .number n => Nat.repr n
  | .text s => quote s
  | .list items => "[" ++ ",".intercalate (compressItems items) ++ "]"
  | .object fields => "\x7b" ++ ",".intercalate (compressFields fields) ++ "\x7d"

/-- The items of a list, each printed. -/
def compressItems : List Json → List String
  | [] => []
  | j :: rest => compress j :: compressItems rest

/-- The fields of an object, each printed. -/
def compressFields : List (String × Json) → List String
  | [] => []
  | (key, j) :: rest => (quote key ++ ":" ++ compress j) :: compressFields rest

end

end Json

end FleetControl
