/-!
# SHA-256

`Sha256.hash` maps a list of bytes to the 32 bytes of its SHA-256 digest (FIPS 180-4): the message
is padded to whole blocks of 64 bytes, and each block is folded into a state of eight words.
-/

namespace FleetControl.Digest

/-- The bytes of a word, most significant first. -/
def bigEndian32 (w : UInt32) : List UInt8 :=
  [(w >>> 24).toUInt8, (w >>> 16).toUInt8, (w >>> 8).toUInt8, w.toUInt8]

/-- Two hexadecimal digits for a byte. -/
def hexByte (b : UInt8) : List Char :=
  [Nat.digitChar (b.toNat / 16), Nat.digitChar (b.toNat % 16)]

/-- Bytes in lower-case hexadecimal. -/
def hex (bytes : List UInt8) : String := String.ofList (bytes.flatMap hexByte)

namespace Sha256

/-- The constant of each of the 64 rounds. -/
def roundConstants : Array UInt32 := #[
  0x428a2f98, 0x71374491, 0xb5c0fbcf, 0xe9b5dba5, 0x3956c25b, 0x59f111f1, 0x923f82a4, 0xab1c5ed5,
  0xd807aa98, 0x12835b01, 0x243185be, 0x550c7dc3, 0x72be5d74, 0x80deb1fe, 0x9bdc06a7, 0xc19bf174,
  0xe49b69c1, 0xefbe4786, 0x0fc19dc6, 0x240ca1cc, 0x2de92c6f, 0x4a7484aa, 0x5cb0a9dc, 0x76f988da,
  0x983e5152, 0xa831c66d, 0xb00327c8, 0xbf597fc7, 0xc6e00bf3, 0xd5a79147, 0x06ca6351, 0x14292967,
  0x27b70a85, 0x2e1b2138, 0x4d2c6dfc, 0x53380d13, 0x650a7354, 0x766a0abb, 0x81c2c92e, 0x92722c85,
  0xa2bfe8a1, 0xa81a664b, 0xc24b8b70, 0xc76c51a3, 0xd192e819, 0xd6990624, 0xf40e3585, 0x106aa070,
  0x19a4c116, 0x1e376c08, 0x2748774c, 0x34b0bcb5, 0x391c0cb3, 0x4ed8aa4a, 0x5b9cca4f, 0x682e6ff3,
  0x748f82ee, 0x78a5636f, 0x84c87814, 0x8cc70208, 0x90befffa, 0xa4506ceb, 0xbef9a3f7, 0xc67178f2]

/-- The eight words folded over the blocks of a message. -/
structure State where
  a : UInt32
  b : UInt32
  c : UInt32
  d : UInt32
  e : UInt32
  f : UInt32
  g : UInt32
  h : UInt32

/-- The state before the first block. -/
def State.initial : State :=
  ⟨0x6a09e667, 0xbb67ae85, 0x3c6ef372, 0xa54ff53a, 0x510e527f, 0x9b05688c, 0x1f83d9ab, 0x5be0cd19⟩

/-- Wordwise sum of two states. -/
def State.add (s t : State) : State :=
  ⟨s.a + t.a, s.b + t.b, s.c + t.c, s.d + t.d, s.e + t.e, s.f + t.f, s.g + t.g, s.h + t.h⟩

/-- The words of a state as bytes. -/
def State.bytes (s : State) : List UInt8 :=
  [s.a, s.b, s.c, s.d, s.e, s.f, s.g, s.h].flatMap bigEndian32

/-- A word turned to the right by `n` bits. -/
def rotateRight (w n : UInt32) : UInt32 := (w >>> n) ||| (w <<< (32 - n))

/-- Zero bytes that fill a message of `n` bytes, one mark and an eight-byte length to blocks. -/
def fill (n : Nat) : Nat := (119 - n % 64) % 64

/-- A message with its mark, its filling and its length in bits: whole blocks of 64 bytes. -/
def pad (bytes : List UInt8) : List UInt8 :=
  let bits := 8 * bytes.length
  bytes ++ [0x80] ++ List.replicate (fill bytes.length) 0 ++
    bigEndian32 (bits / UInt32.size).toUInt32 ++ bigEndian32 bits.toUInt32

/-- Bytes in groups of four, each as a word. -/
def toWords : List UInt8 → List UInt32
  | p :: q :: r :: s :: rest =>
    ((p.toUInt32 <<< 24) ||| (q.toUInt32 <<< 16) ||| (r.toUInt32 <<< 8) ||| s.toUInt32) ::
      toWords rest
  | _ => []

/-- The word that round `i` adds, from the words of the rounds before it. -/
def nextWord (ws : Array UInt32) (i : Nat) : UInt32 :=
  let early := ws.getD (i - 15) 0
  let late := ws.getD (i - 2) 0
  let s0 := rotateRight early 7 ^^^ rotateRight early 18 ^^^ (early >>> 3)
  let s1 := rotateRight late 17 ^^^ rotateRight late 19 ^^^ (late >>> 10)
  ws.getD (i - 16) 0 + s0 + ws.getD (i - 7) 0 + s1

/-- The words of all 64 rounds, from the 16 words of a block. -/
def schedule (block : List UInt32) : Array UInt32 :=
  (List.range 48).foldl (fun ws i => ws.push (nextWord ws (16 + i))) block.toArray

/-- One round, with its constant and its word. -/
def round (s : State) (k w : UInt32) : State :=
  let s1 := rotateRight s.e 6 ^^^ rotateRight s.e 11 ^^^ rotateRight s.e 25
  let choice := (s.e &&& s.f) ^^^ (~~~s.e &&& s.g)
  let t1 := s.h + s1 + choice + k + w
  let s0 := rotateRight s.a 2 ^^^ rotateRight s.a 13 ^^^ rotateRight s.a 22
  let majority := (s.a &&& s.b) ^^^ (s.a &&& s.c) ^^^ (s.b &&& s.c)
  ⟨t1 + (s0 + majority), s.a, s.b, s.c, s.d + t1, s.e, s.f, s.g⟩

/-- Fold one block into the state. -/
def compress (s : State) (block : List UInt32) : State :=
  let ws := schedule block
  s.add ((List.range 64).foldl
    (fun t i => round t (roundConstants.getD i 0) (ws.getD i 0)) s)

/-- Fold `n` blocks, taken from the front of a list of words. -/
def absorb : Nat → State → List UInt32 → State
  | 0, s, _ => s
  | n + 1, s, ws => absorb n (compress s (ws.take 16)) (ws.drop 16)

/-- The digest of a message. -/
def hash (bytes : List UInt8) : List UInt8 :=
  let padded := pad bytes
  (absorb (padded.length / 64) State.initial (toWords padded)).bytes

/-- A padded message consists of whole blocks. -/
theorem length_pad_mod (bytes : List UInt8) : (pad bytes).length % 64 = 0 := by
  simp only [pad, fill, bigEndian32, List.length_append, List.length_replicate, List.length_cons,
    List.length_nil]
  omega

end Sha256

end FleetControl.Digest
