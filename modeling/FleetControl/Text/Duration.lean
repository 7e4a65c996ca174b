/-!
# Lengths of time in words

A length of time is written in seconds from one second on and in milliseconds below, with the
fewest decimals that lose nothing: `2.5s`, `250ms`. No time at all is `0ns`.
-/

namespace FleetControl.Text

/-- The decimal digits of a number, with zeros in front up to a width. -/
def padded (width n : Nat) : String :=
  let digits := Nat.repr n
  String.ofList (List.replicate (width - digits.length) '0') ++ digits

/-- A decimal text without its trailing zeros. -/
def trimZeros (s : String) : String :=
  String.ofList (s.toList.reverse.dropWhile (· == '0')).reverse

/-- The text of a number of milliseconds. -/
def duration (ms : Nat) : String :=
  if ms = 0 then "0ns"
  else if ms < 1000 then Nat.repr ms ++ "ms"
  else if ms % 1000 = 0 then Nat.repr (ms / 1000) ++ "s"
  else Nat.repr (ms / 1000) ++ "." ++ trimZeros (padded 3 (ms % 1000)) ++ "s"

example : duration 0 = "0ns" := by decide

example : duration 250 = "250ms" := by decide

example : duration 1500 = "1.5s" := by decide

example : duration 60001 = "60.001s" := by decide

end FleetControl.Text
