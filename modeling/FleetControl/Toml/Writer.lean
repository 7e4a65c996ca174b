import FleetControl.Toml.Reader

/-!
# Writing TOML

A document is written line by line: fields with simple values, and headers, each after an empty
line unless it is the first. `Line.statement` says how a line is to be read.
-/

namespace FleetControl.Toml

/-- A value that fits on a line. -/
inductive Simple where
  | text (s : String)
  | integer (n : Nat)
  | bool (b : Bool)
  | emptyArray
deriving DecidableEq, Inhabited

/-- The item that a simple value is. -/
def Simple.item : Simple → Item
  | .text s => .text s
  | .integer n => .integer n
  | .bool b => .bool b
  | .emptyArray => .array []

/-- A simple value in writing. -/
def Simple.write : Simple → List Char
  | .text s => writeText s
  | .integer n => (Nat.repr n).toList
  | .bool b => if b then "true".toList else "false".toList
  | .emptyArray => ['[', ']']

/-- A line to be written. -/
inductive Line where
  | field (key : String) (value : Simple)
  | header (path : List String) (key : String)
  | element (path : List String) (key : String)
deriving DecidableEq, Inhabited

namespace Line

/-- The statement that a line makes. -/
def statement : Line → Statement
  | .field key value => .assign [] key value.item
  | .header path key => .header path key
  | .element path key => .element path key

/-- Keys joined by dots. -/
def writePath (path : List String) (key : String) : List Char :=
  path.flatMap (fun k => writeKey k ++ ['.']) ++ writeKey key

/-- A line in writing, with its line end. -/
def write : Line → List Char
  | .field key value => writeKey key ++ " = ".toList ++ value.write ++ ['\n']
  | .header path key => ['['] ++ writePath path key ++ [']', '\n']
  | .element path key => ['[', '['] ++ writePath path key ++ [']', ']', '\n']

/-- A line that is not the first: a header has an empty line in front. -/
def writeLater : Line → List Char
  | .field key value => (Line.field key value).write
  | line => '\n' :: line.write

end Line

/-- The text of a document. -/
def writeLines : List Line → String
  | [] => ""
  | first :: rest => String.ofList (first.write ++ rest.flatMap Line.writeLater)

end FleetControl.Toml
