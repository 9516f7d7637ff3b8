import QuantFamily.Text.Quoted

/-!
# SHA-256 digests

The digest of a sequence of bytes, as eight words of thirty-two bits. The bytes are padded
to whole blocks of sixty-four, and every block is mixed into the state in sixty-four
rounds.
-/

namespace QuantFamily.Digest

/-- A sequence of bytes. -/
abbrev Bytes := List UInt8

/-- The bytes of a text. -/
def bytesOf (text : String) : Bytes :=
  text.toUTF8.toList

/-- The eight words that a digest is computed in. -/
structure State where
  a : UInt32
  b : UInt32
  c : UInt32
  d : UInt32
  e : UInt32
  f : UInt32
  g : UInt32
  h : UInt32

/-- The state before the first block: the fractional parts of the square roots of the
first eight primes. -/
def State.start : State :=
  ⟨0x6a09e667, 0xbb67ae85, 0x3c6ef372, 0xa54ff53a, 0x510e527f, 0x9b05688c,
   0x1f83d9ab, 0x5be0cd19⟩

/-- One constant for each round: the fractional parts of the cube roots of the first
sixty-four primes. -/
def roundConstants : List UInt32 :=
  [0x428a2f98, 0x71374491, 0xb5c0fbcf, 0xe9b5dba5, 0x3956c25b, 0x59f111f1,
   0x923f82a4, 0xab1c5ed5, 0xd807aa98, 0x12835b01, 0x243185be, 0x550c7dc3,
   0x72be5d74, 0x80deb1fe, 0x9bdc06a7, 0xc19bf174, 0xe49b69c1, 0xefbe4786,
   0x0fc19dc6, 0x240ca1cc, 0x2de92c6f, 0x4a7484aa, 0x5cb0a9dc, 0x76f988da,
   0x983e5152, 0xa831c66d, 0xb00327c8, 0xbf597fc7, 0xc6e00bf3, 0xd5a79147,
   0x06ca6351, 0x14292967, 0x27b70a85, 0x2e1b2138, 0x4d2c6dfc, 0x53380d13,
   0x650a7354, 0x766a0abb, 0x81c2c92e, 0x92722c85, 0xa2bfe8a1, 0xa81a664b,
   0xc24b8b70, 0xc76c51a3, 0xd192e819, 0xd6990624, 0xf40e3585, 0x106aa070,
   0x19a4c116, 0x1e376c08, 0x2748774c, 0x34b0bcb5, 0x391c0cb3, 0x4ed8aa4a,
   0x5b9cca4f, 0x682e6ff3, 0x748f82ee, 0x78a5636f, 0x84c87814, 0x8cc70208,
   0x90befffa, 0xa4506ceb, 0xbef9a3f7, 0xc67178f2]

/-- A word turned to the right. -/
def turn (x : UInt32) (n : UInt32) : UInt32 :=
  (x >>> n) ||| (x <<< (32 - n))

/-- A number as big-endian bytes. -/
def bigEndian : Nat -> Nat -> Bytes
  | 0, _ => []
  | width + 1, n => UInt8.ofNat (n / Nat.pow 256 width) :: bigEndian width n

/-- The padding behind the given number of bytes: a one bit, zeros up to the last eight
bytes of a block, and the length in bits. -/
def padding (length : Nat) : Bytes :=
  0x80 :: List.replicate ((119 - length % 64) % 64) 0 ++ bigEndian 8 (8 * length)

/-- The big-endian words of a sequence of bytes. -/
def wordsOf : Bytes -> List UInt32
  | a :: b :: c :: d :: rest =>
      ((a.toUInt32 <<< 24) ||| (b.toUInt32 <<< 16) ||| (c.toUInt32 <<< 8) ||| d.toUInt32) ::
        wordsOf rest
  | _ => []

/-- The word of the schedule that follows sixteen words. -/
def nextWord (window : List UInt32) : UInt32 :=
  let w := fun i => window.getD i 0
  let low := turn (w 1) 7 ^^^ turn (w 1) 18 ^^^ (w 1 >>> 3)
  let high := turn (w 14) 17 ^^^ turn (w 14) 19 ^^^ (w 14 >>> 10)
  w 0 + low + w 9 + high

/-- The words of the rounds, starting from the sixteen words of a block. -/
def schedule : Nat -> List UInt32 -> List UInt32
  | 0, _ => []
  | count + 1, window =>
      window.headD 0 :: schedule count (window.drop 1 ++ [nextWord window])

/-- One round with its constant and its word. -/
def State.round (s : State) (constant word : UInt32) : State :=
  let high := turn s.e 6 ^^^ turn s.e 11 ^^^ turn s.e 25
  let choice := (s.e &&& s.f) ^^^ ((~~~ s.e) &&& s.g)
  let first := s.h + high + choice + constant + word
  let low := turn s.a 2 ^^^ turn s.a 13 ^^^ turn s.a 22
  let majority := (s.a &&& s.b) ^^^ (s.a &&& s.c) ^^^ (s.b &&& s.c)
  ⟨first + (low + majority), s.a, s.b, s.c, s.d + first, s.e, s.f, s.g⟩

/-- Two states added word by word. -/
def State.add (s t : State) : State :=
  ⟨s.a + t.a, s.b + t.b, s.c + t.c, s.d + t.d, s.e + t.e, s.f + t.f, s.g + t.g, s.h + t.h⟩

/-- Mix the sixteen words of a block into a state. -/
def State.absorb (s : State) (block : List UInt32) : State :=
  s.add ((roundConstants.zip (schedule 64 block)).foldl (fun t (k, w) => t.round k w) s)

/-- Mix the given number of blocks into a state. -/
def State.absorbAll (s : State) : Nat -> List UInt32 -> State
  | 0, _ => s
  | count + 1, words => (s.absorb (words.take 16)).absorbAll count (words.drop 16)

/-- The words of a state in their order. -/
def State.words (s : State) : List UInt32 :=
  [s.a, s.b, s.c, s.d, s.e, s.f, s.g, s.h]

/-- The state after all blocks of a padded sequence of bytes. -/
def digest (input : Bytes) : State :=
  let words := wordsOf (input ++ padding input.length)
  State.start.absorbAll (words.length / 16) words

/-- A digest as thirty-two bytes. -/
def State.bytes (s : State) : Bytes :=
  s.words.flatMap fun w => bigEndian 4 w.toNat

/-- A digest in lower-case hexadecimal. -/
def State.hex (s : State) : String :=
  String.ofList (s.words.flatMap fun w => Text.hex 8 w.toNat)

/-- The padding fills up the last block. -/
theorem length_append_padding (input : Bytes) :
    (input ++ padding input.length).length % 64 = 0 := by
  simp only [padding, bigEndian, List.length_append, List.length_cons, List.length_replicate,
    List.length_nil]
  omega

end QuantFamily.Digest
