import FleetControl.Text.Hex

/-!
# Quoted texts in TOML

A text is written between quotes in one of four forms: basic forms know escapes and literal forms
do not, short forms stay on a line and long forms need not.

* `readText` reads a text in any form, and `readShort` in a short one;
* `writeText` writes a text in the plainest form that can hold it, and `writeKey` a key.
-/

namespace FleetControl.Toml

open Text

/-- A quoting form. -/
inductive Form where
  | basic
  | literal
  | longBasic
  | longLiteral
deriving DecidableEq, Inhabited

/-! ### Characters -/

/-- A control character other than the tabulator. -/
def isControl (c : Char) : Bool := (c.toNat < 32 && c != '\t') || c.toNat == 127

/-- Blank space within a line. -/
def isBlankChar (c : Char) : Bool := c == ' ' || c == '\t'

/-- The character that a one-letter escape stands for. -/
def simpleEscape? : Char → Option Char
  | '"' => some '"'
  | '\\' => some '\\'
  | 'b' => some '\x08'
  | 'f' => some '\x0c'
  | 'n' => some '\n'
  | 'r' => some '\r'
  | 't' => some '\t'
  | _ => none

/-- The character whose code the digits of an escape write. -/
def escapedCode? (digits : List Char) : Option Char := (hexNumber? digits).bind charOfCode?

/-! ### Reading -/

/-- A character put in front of a text that was read. -/
def prepend (front : List Char) (read : Option (List Char × List Char)) :
    Option (List Char × List Char) :=
  read.map fun (body, rest) => (front ++ body, rest)

/-- The body of a short basic text up to the closing quote, escapes as they stand. -/
def basicBody : List Char → Option (List Char × List Char)
  | [] => none
  | '"' :: rest => some ([], rest)
  | '\\' :: c :: rest => if isControl c then none else prepend ['\\', c] (basicBody rest)
  | c :: rest => if isControl c then none else prepend [c] (basicBody rest)

/-- The body of a short literal text up to the closing quote. -/
def literalBody : List Char → Option (List Char × List Char)
  | [] => none
  | '\'' :: rest => some ([], rest)
  | c :: rest => if isControl c then none else prepend [c] (literalBody rest)

/-- The body of a long basic text up to the closing quotes, of which two more may belong to the
body. Escapes are left as they stand, and line ends become line feeds. -/
def longBasicBody : List Char → Option (List Char × List Char)
  | [] => none
  | '"' :: '"' :: '"' :: '"' :: '"' :: rest => some (['"', '"'], rest)
  | '"' :: '"' :: '"' :: '"' :: rest => some (['"'], rest)
  | '"' :: '"' :: '"' :: rest => some ([], rest)
  | '\\' :: '\r' :: '\n' :: rest => prepend ['\\', '\n'] (longBasicBody rest)
  | '\\' :: c :: rest => prepend ['\\', c] (longBasicBody rest)
  | '\r' :: '\n' :: rest => prepend ['\n'] (longBasicBody rest)
  | c :: rest => if isControl c && c != '\n' then none else prepend [c] (longBasicBody rest)

/-- The body of a long literal text up to the closing quotes, of which two more may belong to the
body. Line ends become line feeds. -/
def longLiteralBody : List Char → Option (List Char × List Char)
  | [] => none
  | '\'' :: '\'' :: '\'' :: '\'' :: '\'' :: rest => some (['\'', '\''], rest)
  | '\'' :: '\'' :: '\'' :: '\'' :: rest => some (['\''], rest)
  | '\'' :: '\'' :: '\'' :: rest => some ([], rest)
  | '\r' :: '\n' :: rest => prepend ['\n'] (longLiteralBody rest)
  | c :: rest => if isControl c && c != '\n' then none else prepend [c] (longLiteralBody rest)

/-- Nothing but blanks stands before the end of the line. -/
def lineEnds (cs : List Char) : Bool := (cs.dropWhile isBlankChar).head? == some '\n'

/-- Replace escapes by what they stand for. A backslash at the end of a line stands for nothing, and
neither do the space and line ends after it, which are left out while `skipping`. The digits of an
escape stand together, so no line end comes between them. -/
def unescape : Bool → List Char → Option (List Char)
  | _, [] => some []
  | _, '\\' :: 'u' :: a :: b :: c :: d :: rest => do
    return (← escapedCode? [a, b, c, d]) :: (← unescape false rest)
  | _, '\\' :: 'U' :: a :: b :: c :: d :: e :: f :: g :: h :: rest => do
    return (← escapedCode? [a, b, c, d, e, f, g, h]) :: (← unescape false rest)
  | _, '\\' :: c :: rest =>
    if lineEnds (c :: rest) then unescape true rest
    else do return (← simpleEscape? c) :: (← unescape false rest)
  | skipping, c :: rest =>
    if c = '\\' then none
    else if skipping && (isBlankChar c || c == '\n') then unescape true rest
    else (c :: ·) <$> unescape false rest

/-- The text without a line end at its front. -/
def dropLineEnd : List Char → List Char
  | '\n' :: rest => rest
  | '\r' :: '\n' :: rest => rest
  | cs => cs

/-- A text in a short form, at the front of a text. -/
def readShort : List Char → Option (List Char × List Char)
  | '"' :: rest => do
    let (body, rest) ← basicBody rest
    return (← unescape false body, rest)
  | '\'' :: rest => literalBody rest
  | _ => none

/-- A text in any form, at the front of a text. -/
def readText : List Char → Option (List Char × List Char)
  | '"' :: '"' :: '"' :: rest => do
    let (body, rest) ← longBasicBody (dropLineEnd rest)
    return (← unescape false body, rest)
  | '\'' :: '\'' :: '\'' :: rest => longLiteralBody (dropLineEnd rest)
  | cs => readShort cs

/-! ### Writing -/

/-- The longest run of a character in a text, where a run of `n` is under way and `m` is the
longest so far. -/
def longestRun (q : Char) : Nat → Nat → List Char → Nat
  | n, m, [] => max n m
  | n, m, c :: rest => if c = q then longestRun q (n + 1) m rest else longestRun q 0 (max n m) rest

/-- Whether a form can hold a text without an escape for the sake of its quotes, backslashes,
line ends and control characters. -/
def Form.suits (form : Form) (s : List Char) : Bool :=
  let plain := !s.any fun c => isControl c && c != '\n'
  match form with
  | .basic => plain && !s.contains '"' && !s.contains '\\' && !s.contains '\n'
  | .literal => plain && !s.contains '\'' && !s.contains '\n'
  | .longBasic => plain && !s.contains '\\' && longestRun '"' 0 0 s < 3
  | .longLiteral => plain && longestRun '\'' 0 0 s < 3

/-- The plainest form for a text. -/
def Form.choose (s : List Char) : Form :=
  match [Form.basic, .literal, .longBasic, .longLiteral].find? (·.suits s) with
  | some form => form
  | none => if s.contains '\n' then .longBasic else .basic

/-- A character in a basic form, after a run of `n` quotes of which `spare` may stand. -/
def escapeChar (form : Form) (quotes : Nat) (c : Char) : List Char :=
  if c = '"' then
    if quotes < (if form = .longBasic then 2 else 0) then [c] else ['\\', '"']
  else if c = '\\' then ['\\', '\\']
  else if c = '\x08' then ['\\', 'b']
  else if c = '\t' then ['\\', 't']
  else if c = '\n' then if form = .longBasic then [c] else ['\\', 'n']
  else if c = '\x0c' then ['\\', 'f']
  else if c = '\r' then ['\\', 'r']
  else if isControl c then '\\' :: 'u' :: fourHexDigits c.toNat
  else [c]

/-- A text in a basic form, after a run of `quotes` quotes. A quote that is escaped and any other
character end a run. -/
def escapeText (form : Form) : Nat → List Char → List Char
  | _, [] => []
  | quotes, c :: rest =>
    let written := escapeChar form quotes c
    written ++ escapeText form (if written = ['"'] then quotes + 1 else 0) rest

/-- The quotes of a form. -/
def Form.quotes : Form → List Char
  | .basic => ['"']
  | .literal => ['\'']
  | .longBasic => ['"', '"', '"']
  | .longLiteral => ['\'', '\'', '\'']

/-- A text in a form. A long form of a text with a line end starts on a line of its own. -/
def Form.write (form : Form) (s : List Char) : List Char :=
  let body := match form with
    | .basic | .longBasic => escapeText form 0 s
    | .literal | .longLiteral => s
  let start := if (form = .longBasic || form = .longLiteral) && s.contains '\n' then ['\n'] else []
  form.quotes ++ start ++ body ++ form.quotes

/-- A text in the plainest form that can hold it. -/
def writeText (s : String) : List Char := (Form.choose s.toList).write s.toList

/-- A character of a key that needs no quotes. -/
def isBareChar (c : Char) : Bool := c.isAlphanum || c == '-' || c == '_'

/-- A key: bare if it can be, and otherwise in the plainest short form. -/
def writeKey (key : String) : List Char :=
  let s := key.toList
  if !s.isEmpty && s.all isBareChar then s
  else if Form.literal.suits s && !Form.basic.suits s then Form.literal.write s
  else Form.basic.write s

end FleetControl.Toml
