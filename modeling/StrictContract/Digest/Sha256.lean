import StrictContract.Octets

/-! # SHA-256 — the hash function under every identifier

The message is padded to whole blocks of sixteen words, each block is stretched to a **schedule** of
sixty-four words, and sixty-four rounds mix it into a **chain** of eight words. The digest is the
final chain, most significant byte first, so it always has 32 bytes (`Sha256.length_digest`). -/

namespace StrictContract.Sha256

/-- The chain of eight words that is carried from block to block. -/
structure Chain where
  a : UInt32
  b : UInt32
  c : UInt32
  d : UInt32
  e : UInt32
  f : UInt32
  g : UInt32
  h : UInt32
deriving DecidableEq

/-- The chain before the first block: the fractional parts of the square roots of the first eight
primes. -/
def Chain.start : Chain :=
  ⟨0x6a09e667, 0xbb67ae85, 0x3c6ef372, 0xa54ff53a, 0x510e527f, 0x9b05688c, 0x1f83d9ab, 0x5be0cd19⟩

/-- The round constants: the fractional parts of the cube roots of the first sixty-four primes. -/
def roundConstants : List UInt32 :=
  [0x428a2f98, 0x71374491, 0xb5c0fbcf, 0xe9b5dba5, 0x3956c25b, 0x59f111f1, 0x923f82a4, 0xab1c5ed5,
   0xd807aa98, 0x12835b01, 0x243185be, 0x550c7dc3, 0x72be5d74, 0x80deb1fe, 0x9bdc06a7, 0xc19bf174,
   0xe49b69c1, 0xefbe4786, 0x0fc19dc6, 0x240ca1cc, 0x2de92c6f, 0x4a7484aa, 0x5cb0a9dc, 0x76f988da,
   0x983e5152, 0xa831c66d, 0xb00327c8, 0xbf597fc7, 0xc6e00bf3, 0xd5a79147, 0x06ca6351, 0x14292967,
   0x27b70a85, 0x2e1b2138, 0x4d2c6dfc, 0x53380d13, 0x650a7354, 0x766a0abb, 0x81c2c92e, 0x92722c85,
   0xa2bfe8a1, 0xa81a664b, 0xc24b8b70, 0xc76c51a3, 0xd192e819, 0xd6990624, 0xf40e3585, 0x106aa070,
   0x19a4c116, 0x1e376c08, 0x2748774c, 0x34b0bcb5, 0x391c0cb3, 0x4ed8aa4a, 0x5b9cca4f, 0x682e6ff3,
   0x748f82ee, 0x78a5636f, 0x84c87814, 0x8cc70208, 0x90befffa, 0xa4506ceb, 0xbef9a3f7, 0xc67178f2]

/-- Rotation of a word to the right. -/
@[inline] def rotateRight (x : UInt32) (n : UInt32) : UInt32 :=
  (x >>> n) ||| (x <<< (32 - n))

/-- The word that follows in a schedule. The schedule holds at least sixteen words whenever it is
extended, so the default is never read. -/
def nextWord (w : Array UInt32) : UInt32 :=
  let x := w.getD (w.size - 15) 0
  let y := w.getD (w.size - 2) 0
  let s0 := rotateRight x 7 ^^^ rotateRight x 18 ^^^ (x >>> 3)
  let s1 := rotateRight y 17 ^^^ rotateRight y 19 ^^^ (y >>> 10)
  w.getD (w.size - 16) 0 + s0 + w.getD (w.size - 7) 0 + s1

/-- A schedule with `n` further words. -/
def extend : Nat → Array UInt32 → Array UInt32
  | 0, w => w
  | n + 1, w => extend n (w.push (nextWord w))

/-- One round: mixes a round constant and a schedule word into the chain. -/
def round (s : Chain) (k w : UInt32) : Chain :=
  let s1 := rotateRight s.e 6 ^^^ rotateRight s.e 11 ^^^ rotateRight s.e 25
  let choice := (s.e &&& s.f) ^^^ ((~~~ s.e) &&& s.g)
  let t1 := s.h + s1 + choice + k + w
  let s0 := rotateRight s.a 2 ^^^ rotateRight s.a 13 ^^^ rotateRight s.a 22
  let majority := (s.a &&& s.b) ^^^ (s.a &&& s.c) ^^^ (s.b &&& s.c)
  ⟨t1 + (s0 + majority), s.a, s.b, s.c, s.d + t1, s.e, s.f, s.g⟩

/-- The rounds for the given constants, reading the schedule from position `i`. -/
def rounds : List UInt32 → Nat → Array UInt32 → Chain → Chain
  | [], _, _, s => s
  | k :: ks, i, w, s => rounds ks (i + 1) w (round s k (w.getD i 0))

/-- Word-wise sum of two chains. -/
def Chain.add (s t : Chain) : Chain :=
  ⟨s.a + t.a, s.b + t.b, s.c + t.c, s.d + t.d, s.e + t.e, s.f + t.f, s.g + t.g, s.h + t.h⟩

/-- Absorbs one block of sixteen words. -/
def compress (s : Chain) (block : Array UInt32) : Chain :=
  s.add (rounds roundConstants 0 (extend 48 block) s)

/-- A message on its way in: the chain so far, the words of the block being filled, and the bytes of
the word being filled. -/
structure Absorber where
  chain : Chain
  block : Array UInt32
  word : UInt32
  filled : Nat

/-- Takes in one byte. -/
def Absorber.push (s : Absorber) (byte : UInt8) : Absorber :=
  let word := (s.word <<< 8) ||| byte.toUInt32
  if s.filled < 3 then { s with word := word, filled := s.filled + 1 }
  else
    let block := s.block.push word
    if block.size < 16 then { s with block := block, word := 0, filled := 0 }
    else { chain := compress s.chain block, block := #[], word := 0, filled := 0 }

/-- What follows a message of `length` bytes: a one bit, zeros up to eight bytes before a block's
end, and the length in bits, most significant byte first. -/
def padding (length : Nat) : Octets :=
  0x80 :: List.replicate ((119 - length % 64) % 64) 0 ++ (Octets.ofNat 8 (8 * length)).reverse

/-- The four bytes of a word, most significant first. -/
def wordOctets (w : UInt32) : Octets :=
  [(w >>> 24).toUInt8, (w >>> 16).toUInt8, (w >>> 8).toUInt8, w.toUInt8]

/-- The 32 bytes of a chain. -/
def Chain.octets (s : Chain) : Octets :=
  wordOctets s.a ++ wordOctets s.b ++ wordOctets s.c ++ wordOctets s.d ++
    wordOctets s.e ++ wordOctets s.f ++ wordOctets s.g ++ wordOctets s.h

@[simp] theorem Chain.length_octets (s : Chain) : s.octets.length = 32 := rfl

/-- The SHA-256 digest of a message. -/
def digest (message : Octets) : Octets :=
  let start : Absorber := ⟨Chain.start, #[], 0, 0⟩
  ((padding message.length).foldl Absorber.push (message.foldl Absorber.push start)).chain.octets

@[simp] theorem length_digest (message : Octets) : (digest message).length = 32 := rfl

/-- The digest of the digest, as transaction ids use it. -/
def doubleDigest (message : Octets) : Octets := digest (digest message)

@[simp] theorem length_doubleDigest (message : Octets) : (doubleDigest message).length = 32 := rfl

end StrictContract.Sha256
