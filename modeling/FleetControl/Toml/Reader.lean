import FleetControl.Toml.Moment
import FleetControl.Toml.Number
import FleetControl.Toml.Quoted

/-!
# Reading TOML

A document is a list of statements, each on a line: assignments and headers. `Reader.statements`
reads them, `Table.ofStatements` carries them out, and `Reader.decode` reads a text as a value of
a type.
-/

namespace FleetControl.Toml

open Data

/-- A line of a document. -/
inductive Statement where
  /-- `path.key = value`. -/
  | assign (path : List String) (key : String) (value : Item)
  /-- `[path.key]`. -/
  | header (path : List String) (key : String)
  /-- `[[path.key]]`. -/
  | element (path : List String) (key : String)
deriving Inhabited

/-- A document under construction: its root and the table that the last header opened. -/
structure Draft where
  /-- The document so far. -/
  root : Table := []
  /-- The path of the table that assignments go to. -/
  here : List String := []

/-- Carry out a statement. -/
def Draft.run (d : Draft) : Statement → Option Draft
  | .assign path key value => do
    let root ← Table.update false d.here (fun _ t => t.assign path key value) none d.root
    return { d with root }
  | .header path key => do
    let root ← Table.update false path (fun _ t => t.openHeader key) none d.root
    return { root, here := path ++ [key] }
  | .element path key => do
    let root ← Table.update false path (fun _ t => t.appendElement key) none d.root
    return { root, here := path ++ [key] }

/-- The table of a document. -/
def Table.ofStatements (statements : List Statement) : Option Table :=
  (statements.foldlM Draft.run {}).map (·.root)

namespace Reader

/-! ### Lines -/

/-- The text without the blanks in front. -/
def skipBlanks (cs : List Char) : List Char := cs.dropWhile isBlankChar

/-- The text after a line end. -/
def lineEnd : List Char → Option (List Char)
  | '\n' :: rest => some rest
  | '\r' :: '\n' :: rest => some rest
  | _ => none

/-- The text after the rest of a line that holds only a comment, if anything. -/
def endOfLine (cs : List Char) : Option (List Char) :=
  match skipBlanks cs with
  | [] => some []
  | '#' :: rest =>
    match rest.dropWhile (!isControl ·) with
    | [] => some []
    | rest => lineEnd rest
  | rest => lineEnd rest

/-- The text after space, line ends and comments. -/
def skipGap : Bool → List Char → Option (List Char)
  | _, [] => some []
  | _, '\n' :: rest => skipGap false rest
  | _, '\r' :: '\n' :: rest => skipGap false rest
  | true, c :: rest => if isControl c then none else skipGap true rest
  | false, '#' :: rest => skipGap true rest
  | false, c :: rest => if isBlankChar c then skipGap false rest else some (c :: rest)

/-! ### Keys -/

/-- A key without dots. -/
def simpleKey (cs : List Char) : Option (String × List Char) :=
  match readShort cs with
  | some (s, rest) => some (String.ofList s, rest)
  | none =>
    match cs.span isBareChar with
    | ([], _) => none
    | (s, rest) => some (String.ofList s, rest)

/-- The most keys that dots may join. -/
def maxDots : Nat := 79

/-- Keys joined by dots, with blanks around each, at most `n` of them. -/
def keys : Nat → List Char → Option (List String × List Char)
  | 0, _ => none
  | n + 1, cs => do
    let (key, rest) ← simpleKey (skipBlanks cs)
    match skipBlanks rest with
    | '.' :: rest =>
      let (more, rest) ← keys n rest
      return (key :: more, rest)
    | rest => return ([key], rest)

/-- A dotted key: the path and the last part. -/
def dottedKey (cs : List Char) : Option (List String × String × List Char) := do
  let (ks, rest) ← keys maxDots cs
  let last ← ks.getLast?
  return (ks.dropLast, last, rest)

/-! ### Values -/

/-- How deep arrays and inline tables may be nested. -/
def maxDepth : Nat := 79

/-- A value that is neither a text nor an array nor an inline table. -/
def bareValue (cs : List Char) : Option (Item × List Char) :=
  match cs with
  | 't' :: 'r' :: 'u' :: 'e' :: rest => some (.bool true, rest)
  | 'f' :: 'a' :: 'l' :: 's' :: 'e' :: rest => some (.bool false, rest)
  | _ =>
    match Moment.read cs with
    | some (s, rest) => some (.moment s, rest)
    | none => Number.read cs

mutual

/-- A value, with `depth` levels of nesting left. -/
def value : Nat → Nat → List Char → Option (Item × List Char)
  | 0, _, _ => none
  | fuel + 1, depth, cs =>
    match cs with
    | '[' :: rest => do
      if depth = 0 then none
      let rest ← skipGap false rest
      match rest with
      | ']' :: rest => return (.array [], rest)
      | _ =>
        let (items, rest) ← elements fuel (depth - 1) rest
        return (.array items, rest)
    | '\x7b' :: rest => do
      if depth = 0 then none
      match skipBlanks rest with
      | '\x7d' :: rest => return (.inline [], rest)
      | rest =>
        let (table, rest) ← inlineEntries fuel (depth - 1) [] rest
        return (.inline table, rest)
    | _ =>
      if cs.head? = some '"' || cs.head? = some '\'' then
        (readText cs).map fun (s, rest) => (.text (String.ofList s), rest)
      else bareValue cs

/-- The elements of an array from a value on, and what follows the array. -/
def elements : Nat → Nat → List Char → Option (List Item × List Char)
  | 0, _, _ => none
  | fuel + 1, depth, cs => do
    let (item, rest) ← value fuel depth cs
    let rest ← skipGap false rest
    match rest with
    | ']' :: rest => return ([item], rest)
    | ',' :: rest =>
      let rest ← skipGap false rest
      match rest with
      | ']' :: rest => return ([item], rest)
      | _ =>
        let (items, rest) ← elements fuel depth rest
        return (item :: items, rest)
    | _ => none

/-- The entries of an inline table from a key on, added to those before, and what follows. -/
def inlineEntries : Nat → Nat → Table → List Char → Option (Table × List Char)
  | 0, _, _, _ => none
  | fuel + 1, depth, table, cs => do
    let (path, key, rest) ← dottedKey cs
    match rest with
    | '=' :: rest =>
      let (item, rest) ← value fuel depth (skipBlanks rest)
      let table ← table.assign path key item
      match skipBlanks rest with
      | '\x7d' :: rest => return (table, rest)
      | ',' :: rest => inlineEntries fuel depth table rest
      | _ => none
    | _ => none

end

/-- A value at the front of a text. Every step of reading takes a character, so the length of the
text is fuel enough. -/
def frontValue (cs : List Char) : Option (Item × List Char) := value (cs.length + 1) maxDepth cs

/-! ### Documents -/

/-- A statement at the front of a text, and what follows on its line. -/
def statement : List Char → Option (Statement × List Char)
  | '[' :: '[' :: rest => do
    let (path, key, rest) ← dottedKey rest
    match rest with
    | ']' :: ']' :: rest => return (.element path key, rest)
    | _ => none
  | '[' :: rest => do
    let (path, key, rest) ← dottedKey rest
    match rest with
    | ']' :: rest => return (.header path key, rest)
    | _ => none
  | cs => do
    let (path, key, rest) ← dottedKey cs
    match rest with
    | '=' :: rest =>
      let (item, rest) ← frontValue (skipBlanks rest)
      return (.assign path key item, rest)
    | _ => none

/-- The statements of a text of at most `n` lines. -/
def statementsIn : Nat → List Char → Option (List Statement)
  | 0, _ => none
  | n + 1, cs =>
    match skipBlanks cs with
    | [] => some []
    | rest =>
      match endOfLine rest with
      | some rest => statementsIn n rest
      | none => do
        let (s, rest) ← statement rest
        return s :: (← statementsIn n (← endOfLine rest))

/-- The statements of a text, which may start with a byte order mark. -/
def statements (cs : List Char) : Option (List Statement) :=
  let cs := if cs.head? = some '\uFEFF' then cs.drop 1 else cs
  statementsIn (cs.length + 1) cs

/-- The table that a text describes. -/
def document (text : String) : Option Table := (statements text.toList).bind Table.ofStatements

/-- Read a text as a value of a type. -/
def decode {α : Type} (decoder : Decoder α) (text : String) : Except Fault α :=
  match document text with
  | some table => decoder table.datum
  | none => .error .malformed

end Reader

end FleetControl.Toml
