import FleetControl.Text.Decimal
import FleetControl.Text.Duration

/-!
# Dates and times in TOML

A moment is a date, a time, or both, then with an offset or without. `Moment.read` reads one and
gives its normal form: `T` between date and time, no zeros at the end of a fraction, which has at
most nine digits, and `Z` for the offset zero written as a letter.
-/

namespace FleetControl.Toml.Moment

open Text

/-- A number of exactly `n` digits from `low` to `high`. -/
def digits (n low high : Nat) (cs : List Char) : Option (Nat × List Char) :=
  let ds := cs.take n
  if ds.length = n && ds.all Char.isDigit && low ≤ decimal ds && decimal ds ≤ high then
    some (decimal ds, cs.drop n)
  else none

/-- The text after a character that must be there. -/
def skip (c : Char) : List Char → Option (List Char)
  | [] => none
  | d :: rest => if d = c then some rest else none

/-- Years with a leap day. -/
def isLeapYear (year : Nat) : Bool := year % 4 == 0 && (year % 100 != 0 || year % 400 == 0)

/-- Number of days of a month. -/
def daysIn (year month : Nat) : Nat :=
  if month = 2 then if isLeapYear year then 29 else 28
  else if month = 4 || month = 6 || month = 9 || month = 11 then 30
  else 31

/-- A date. -/
def date (cs : List Char) : Option (String × List Char) := do
  let (year, rest) ← digits 4 0 9999 cs
  let (month, rest) ← digits 2 1 12 (← skip '-' rest)
  let (day, rest) ← digits 2 1 (daysIn year month) (← skip '-' rest)
  return (padded 4 year ++ "-" ++ padded 2 month ++ "-" ++ padded 2 day, rest)

/-- The fraction of a second, if there is one. -/
def fraction : List Char → Option (String × List Char)
  | '.' :: rest =>
    match rest.span Char.isDigit with
    | ([], _) => none
    | (ds, rest) =>
      let kept := trimZeros (String.ofList (ds.take 9))
      some (if kept.isEmpty then "" else "." ++ kept, rest)
  | cs => some ("", cs)

/-- A time of day. -/
def time (cs : List Char) : Option (String × List Char) := do
  let (hour, rest) ← digits 2 0 23 cs
  let (minute, rest) ← digits 2 0 59 (← skip ':' rest)
  let (second, rest) ← digits 2 0 60 (← skip ':' rest)
  let (part, rest) ← fraction rest
  return (padded 2 hour ++ ":" ++ padded 2 minute ++ ":" ++ padded 2 second ++ part, rest)

/-- An offset, if there is one. -/
def offset : List Char → Option (String × List Char)
  | c :: rest =>
    if c = 'Z' || c = 'z' then some ("Z", rest)
    else if c = '+' || c = '-' then do
      let (hour, rest) ← digits 2 0 23 rest
      let (minute, rest) ← digits 2 0 59 (← skip ':' rest)
      let sign := if c = '-' && (hour != 0 || minute != 0) then "-" else "+"
      return (sign ++ padded 2 hour ++ ":" ++ padded 2 minute, rest)
    else some ("", c :: rest)
  | [] => some ("", [])

/-- The time and the offset after a date, if there are any. -/
def afterDate : List Char → Option (String × List Char)
  | c :: rest =>
    if c = 'T' || c = 't' || c = ' ' then do
      let (t, rest) ← time rest
      let (o, rest) ← offset rest
      return ("T" ++ t ++ o, rest)
    else none
  | [] => none

/-- A moment at the front of a text. -/
def read (cs : List Char) : Option (String × List Char) :=
  match date cs with
  | some (d, rest) =>
    match afterDate rest with
    | some (t, rest) => some (d ++ t, rest)
    | none => some (d, rest)
  | none => time cs

end FleetControl.Toml.Moment
