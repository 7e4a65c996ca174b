/-!
# Media types

The header that names the type of a body holds a type and a subtype, and parameters after them,
each behind a semicolon. `MediaType.read` reads it; `MediaType.isJson` says whether it stands for
JSON. A parameter may have spaces in front, and behind it if its value is quoted.
-/

namespace FleetControl.Api

/-- A media type, in lower case. -/
structure MediaType where
  /-- What stands before the slash. -/
  type : String
  /-- What stands after it, up to the last plus sign. -/
  subtype : String
  /-- What stands after the last plus sign. -/
  suffix : Option String := none
deriving DecidableEq, Inhabited

namespace MediaType

/-- A character of a name. -/
def isTokenChar (c : Char) : Bool := c.isAlphanum || "!#$%&'*+-.^_`|~".toList.contains c

/-- A character between quotes. -/
def isQuotedChar (c : Char) : Bool := 31 < c.toNat && c.toNat < 127

/-- A text in lower case. -/
def lower (cs : List Char) : String := String.ofList (cs.map Char.toLower)

/-- What follows a quoted value, of which the opening quote was read. No value is empty, so the
first character belongs to it even if it is a quote. -/
def afterQuoted : List Char → Option (List Char)
  | [] => none
  | c :: rest =>
    if isQuotedChar c then
      match rest.span fun c => isQuotedChar c && c != '"' with
      | (_, '"' :: rest) => some rest
      | _ => none
    else none

mutual

/-- What stands after a media type is a list of parameters; `fuel` bounds their number. -/
def parameters : Nat → List Char → Bool
  | 0, _ => false
  | _, [] => true
  | fuel + 1, ' ' :: rest => parameters fuel rest
  | fuel + 1, cs =>
    match cs.span isTokenChar with
    | ([], _) => false
    | (_, '=' :: '"' :: rest) =>
      match (afterQuoted rest).map fun rest => rest.dropWhile (· == ' ') with
      | some [] => true
      | some (';' :: rest) => parameters fuel rest
      | _ => false
    | (_, '=' :: rest) => parameterValue fuel rest
    | _ => false

/-- A value without quotes, and the parameters after it. It may be empty at the end only. -/
def parameterValue : Nat → List Char → Bool
  | 0, _ => false
  | fuel + 1, cs =>
    match cs.span isTokenChar with
    | (_, []) => true
    | ([], _) => false
    | (_, ';' :: rest) => parameters fuel rest
    | _ => false

end

/-- The parts of a subtype around its last plus sign, which does not come first. -/
def splitSuffix (cs : List Char) : List Char × Option (List Char) :=
  match cs.reverse.span (· != '+') with
  | (after, _ :: before) =>
    if before.isEmpty then (cs, none) else (before.reverse, some after.reverse)
  | _ => (cs, none)

/-- Read a media type. -/
def read (header : String) : Option MediaType :=
  match header.toList.span isTokenChar with
  | ([], _) => none
  | (type, '/' :: rest) =>
    match rest.span isTokenChar with
    | ([], _) => none
    | (sub, rest) =>
      let (subtype, suffix) := splitSuffix sub
      let found : MediaType := ⟨lower type, lower subtype, suffix.map lower⟩
      match rest with
      | [] => some found
      | ';' :: rest => if parameters (2 * rest.length + 2) rest then some found else none
      | _ => none
  | _ => none

/-- The media type stands for JSON. -/
def isJson (m : MediaType) : Bool :=
  m.type == "application" && (m.subtype == "json" || m.suffix == some "json")

end MediaType

end FleetControl.Api
