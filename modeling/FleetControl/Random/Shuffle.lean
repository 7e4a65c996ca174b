import FleetControl.Random.ChaCha

/-!
# Shuffling

A list is shuffled from its end: each place swaps with one drawn among the places up to it. A
draw below `n` multiplies a random word by `n` and keeps the high half, and refuses words whose
low half lies beyond the last whole multiple, so that every place is equally likely.
-/

namespace FleetControl.Random

/-- How many words a draw may refuse. Each is refused with a chance below one half. -/
def refusals : Nat := 1000

/-- The least number of leading zeros that a bound below `2 ^ 32` leaves in a word. -/
def leadingZeros (bound : UInt32) : Nat := if bound = 0 then 32 else 31 - bound.toNat.log2

/-- Draw a number below `bound`, refusing at most `fuel` words. -/
def drawBelow (bound : UInt32) : Nat → Generator → Nat × Generator
  | 0, g => (0, g)
  | fuel + 1, g =>
    let zone := (bound <<< (leadingZeros bound).toUInt32) - 1
    let (word, g) := g.next
    let product := word.toNat * bound.toNat
    if product % UInt32.size ≤ zone.toNat then (product / UInt32.size, g) else drawBelow bound fuel g

/-- The list with the elements at two places exchanged. -/
def swapAt {α : Type} (xs : List α) (i j : Nat) : List α :=
  match xs[i]?, xs[j]? with
  | some a, some b => (xs.set i b).set j a
  | _, _ => xs

/-- Swap each of the places `n`, `n - 1`, …, `1` with one drawn among the places up to it. -/
def shuffleFrom {α : Type} : Nat → List α → Generator → List α × Generator
  | 0, xs, g => (xs, g)
  | n + 1, xs, g =>
    let (j, g) := drawBelow (n + 2).toUInt32 refusals g
    shuffleFrom n (swapAt xs (n + 1) j) g

/-- The list in random order, and the generator after the draws. -/
def shuffle {α : Type} (xs : List α) (g : Generator) : List α × Generator :=
  shuffleFrom (xs.length - 1) xs g

end FleetControl.Random
