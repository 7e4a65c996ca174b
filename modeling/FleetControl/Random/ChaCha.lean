/-!
# Seeded random words

The generator is ChaCha with 12 rounds, a 64-bit block counter and stream zero. Its key is spread
from a 64-bit seed by a permuted congruential generator, and the words of the blocks are used in
order. The state is the key and the number of words used, so equal states give equal words.
-/

namespace FleetControl.Random

/-- A ChaCha key and how many words of its stream are used up. -/
structure Generator where
  /-- The eight words of the key. -/
  key : List UInt32
  /-- Words used so far. -/
  position : Nat
deriving DecidableEq, Inhabited

/-- A word turned to the left by `n` bits. -/
def rotateLeft (w n : UInt32) : UInt32 := (w <<< n) ||| (w >>> (32 - n))

/-! ### Spreading a seed -/

/-- One step of the congruential generator that spreads a seed. -/
def spreadStep (state : UInt64) : UInt64 := state * 6364136223846793005 + 11634580027462260723

/-- The word that a state of the spreading generator gives. -/
def spreadWord (state : UInt64) : UInt32 :=
  let folded := (((state >>> 18) ^^^ state) >>> 27).toUInt32
  let turn := (state >>> 59).toUInt32
  (folded >>> turn) ||| (folded <<< ((32 - turn) &&& 31))

/-- The next `n` words spread from a state. -/
def spread : Nat → UInt64 → List UInt32
  | 0, _ => []
  | n + 1, state => spreadWord (spreadStep state) :: spread n (spreadStep state)

/-- The generator of a seed. -/
def Generator.ofSeed (seed : UInt64) : Generator := ⟨spread 8 seed, 0⟩

/-! ### Blocks -/

/-- One quarter round on the words at four places. -/
def quarterRound (s : Array UInt32) (i j k l : Nat) : Array UInt32 :=
  let a := s.getD i 0
  let b := s.getD j 0
  let c := s.getD k 0
  let d := s.getD l 0
  let a := a + b
  let d := rotateLeft (d ^^^ a) 16
  let c := c + d
  let b := rotateLeft (b ^^^ c) 12
  let a := a + b
  let d := rotateLeft (d ^^^ a) 8
  let c := c + d
  let b := rotateLeft (b ^^^ c) 7
  (((s.setIfInBounds i a).setIfInBounds j b).setIfInBounds k c).setIfInBounds l d

/-- A round on the columns and one on the diagonals. -/
def doubleRound (s : Array UInt32) : Array UInt32 :=
  let s := quarterRound s 0 4 8 12
  let s := quarterRound s 1 5 9 13
  let s := quarterRound s 2 6 10 14
  let s := quarterRound s 3 7 11 15
  let s := quarterRound s 0 5 10 15
  let s := quarterRound s 1 6 11 12
  let s := quarterRound s 2 7 8 13
  quarterRound s 3 4 9 14

/-- The state before the rounds: constants, key, counter, stream zero. -/
def blockInput (key : List UInt32) (counter : Nat) : Array UInt32 :=
  let constants : List UInt32 := [0x61707865, 0x3320646e, 0x79622d32, 0x6b206574]
  let tail : List UInt32 := [counter.toUInt32, (counter / UInt32.size).toUInt32, 0, 0]
  (constants ++ key ++ tail).toArray

/-- The sixteen words of a block. -/
def block (key : List UInt32) (counter : Nat) : Array UInt32 :=
  let input := blockInput key counter
  Array.zipWith (· + ·) (Nat.repeat doubleRound 6 input) input

/-- The next word and the generator after it. -/
def Generator.next (g : Generator) : UInt32 × Generator :=
  ((block g.key (g.position / 16)).getD (g.position % 16) 0, { g with position := g.position + 1 })

end FleetControl.Random
