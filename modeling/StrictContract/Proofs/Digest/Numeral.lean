import StrictContract.Digest.Commitment

/-! # Digests by arithmetic — the hash function on natural numbers

A word of 32 bits is computed on slowly where only unfolding is available. The same hash on
**natural numbers** is computed with literals. A schedule is kept newest word first,
so that the words the next one depends on stand at fixed places. Main statements: `digest_eq`, the
two hashes agree on every message, and `Id.ofContent_eq`, so an identifier is computed by either. -/

namespace StrictContract

namespace Sha256

namespace Numeral

/-! ## Words -/

/-- Rotation of a word to the right. -/
def rotateRight (x n : Nat) : Nat := x >>> n ||| x <<< (32 - n) % 0x100000000

/-- A rotation by fewer than 32 places. -/
theorem toNat_rotateRight (x n : UInt32) (hpos : 0 < n.toNat) (hlt : n.toNat < 32) :
    (Sha256.rotateRight x n).toNat = rotateRight x.toNat n.toNat := by
  have hle : n ≤ 32 := UInt32.le_iff_toNat_le.2 (Nat.le_of_lt hlt)
  have hsub : (32 - n).toNat = 32 - n.toNat := UInt32.toNat_sub_of_le _ _ hle
  have hshift : (32 - n.toNat) % 32 = 32 - n.toNat := Nat.mod_eq_of_lt (by omega)
  rw [Sha256.rotateRight, rotateRight, UInt32.toNat_or, UInt32.toNat_shiftRight,
    UInt32.toNat_shiftLeft, hsub, hshift, Nat.mod_eq_of_lt hlt]

/-! ## Schedules -/

/-- The word that follows in a schedule, which is given newest word first. -/
def nextWord (w : List Nat) : Nat :=
  let x := w.getD 14 0
  let y := w.getD 1 0
  let s0 := rotateRight x 7 ^^^ rotateRight x 18 ^^^ x >>> 3
  let s1 := rotateRight y 17 ^^^ rotateRight y 19 ^^^ y >>> 10
  (w.getD 15 0 + s0 + w.getD 6 0 + s1) % 0x100000000

/-- A schedule with `n` further words, newest first. -/
def extend : Nat → List Nat → List Nat
  | 0, w => w
  | n + 1, w => extend n (nextWord w :: w)

/-- The words of a schedule as numbers, newest first. -/
def newest (w : Array UInt32) : List Nat := (w.toList.map UInt32.toNat).reverse

@[simp] theorem newest_push (w : Array UInt32) (x : UInt32) :
    newest (w.push x) = x.toNat :: newest w := by
  simp [newest]

@[simp] theorem length_newest (w : Array UInt32) : (newest w).length = w.size := by
  simp [newest]

/-- A word counted from the newest one. -/
theorem getD_newest {w : Array UInt32} {i : Nat} (h : i < w.size) :
    (newest w).getD i 0 = (w.getD (w.size - (i + 1)) 0).toNat := by
  have hback : w.size - (i + 1) = w.size - 1 - i := by omega
  have hlt : w.size - 1 - i < w.size := by omega
  simp [newest, Array.getD, hback, hlt, List.getD_eq_getElem?_getD, h]

theorem toNat_nextWord {w : Array UInt32} (h : 16 ≤ w.size) :
    (Sha256.nextWord w).toNat = nextWord (newest w) := by
  simp only [nextWord, getD_newest (show 14 < w.size by omega),
    getD_newest (show 1 < w.size by omega), getD_newest (show 15 < w.size by omega),
    getD_newest (show 6 < w.size by omega)]
  simp only [Sha256.nextWord, UInt32.toNat_add, UInt32.toNat_xor, UInt32.toNat_shiftRight,
    Nat.mod_add_mod]
  rw [toNat_rotateRight _ 7 (by decide) (by decide), toNat_rotateRight _ 18 (by decide) (by decide),
    toNat_rotateRight _ 17 (by decide) (by decide), toNat_rotateRight _ 19 (by decide) (by decide)]
  rfl

/-- A schedule is extended word by word on either side. -/
theorem newest_extend (n : Nat) {w : Array UInt32} (h : 16 ≤ w.size) :
    newest (Sha256.extend n w) = extend n (newest w) := by
  induction n generalizing w with
  | zero => rfl
  | succ n ih =>
    have hsize : 16 ≤ (w.push (Sha256.nextWord w)).size := by
      rw [Array.size_push]
      omega
    rw [Sha256.extend, extend, ih hsize, newest_push, toNat_nextWord h]

/-! ## Rounds -/

/-- The chain of eight words as numbers. -/
structure Chain where
  a : Nat
  b : Nat
  c : Nat
  d : Nat
  e : Nat
  f : Nat
  g : Nat
  h : Nat

/-- The numbers of a chain of words. -/
def Chain.of (s : Sha256.Chain) : Chain :=
  ⟨s.a.toNat, s.b.toNat, s.c.toNat, s.d.toNat, s.e.toNat, s.f.toNat, s.g.toNat, s.h.toNat⟩

/-- One round: mixes a round constant and a schedule word into the chain. -/
def round (s : Chain) (k w : Nat) : Chain :=
  let s1 := rotateRight s.e 6 ^^^ rotateRight s.e 11 ^^^ rotateRight s.e 25
  let choice := s.e &&& s.f ^^^ (0xffffffff - s.e) &&& s.g
  let t1 := s.h + s1 + choice + k + w
  let s0 := rotateRight s.a 2 ^^^ rotateRight s.a 13 ^^^ rotateRight s.a 22
  let majority := s.a &&& s.b ^^^ s.a &&& s.c ^^^ s.b &&& s.c
  ⟨(t1 + (s0 + majority)) % 0x100000000, s.a, s.b, s.c, (s.d + t1) % 0x100000000, s.e, s.f, s.g⟩

theorem round_of (s : Sha256.Chain) (k w : UInt32) :
    round (.of s) k.toNat w.toNat = .of (Sha256.round s k w) := by
  simp only [Chain.of, Sha256.round, round, UInt32.toNat_add, UInt32.toNat_xor, UInt32.toNat_and,
    UInt32.toNat_not, Nat.mod_add_mod, Nat.add_mod_mod]
  rw [toNat_rotateRight _ 6 (by decide) (by decide), toNat_rotateRight _ 11 (by decide) (by decide),
    toNat_rotateRight _ 25 (by decide) (by decide), toNat_rotateRight _ 2 (by decide) (by decide),
    toNat_rotateRight _ 13 (by decide) (by decide), toNat_rotateRight _ 22 (by decide) (by decide)]
  rfl

/-- The rounds for the given constants over the given schedule. -/
def rounds : List Nat → List Nat → Chain → Chain
  | [], _, s => s
  | k :: ks, w, s => rounds ks w.tail (round s k (w.headD 0))

theorem rounds_of (ks : List UInt32) (i : Nat) (w : Array UInt32) (s : Sha256.Chain) :
    rounds (ks.map UInt32.toNat) ((w.toList.map UInt32.toNat).drop i) (.of s) =
      .of (Sha256.rounds ks i w s) := by
  induction ks generalizing i s with
  | nil => rfl
  | cons k ks ih =>
    have hhead : ((w.toList.map UInt32.toNat).drop i).headD 0 = (w.getD i 0).toNat := by
      by_cases hi : i < w.size
      · simp [Array.getD, hi, List.headD_eq_head?_getD]
      · simp [Array.getD, hi, List.headD_eq_head?_getD]
    rw [List.map_cons, rounds, Sha256.rounds, hhead, round_of, List.tail_drop, ih]

/-- The round constants as numbers. -/
def roundConstants : List Nat := Sha256.roundConstants.map UInt32.toNat

/-- Absorbs one block of sixteen words, given newest word first. -/
def compress (s : Chain) (block : List Nat) : Chain :=
  let t := rounds roundConstants (extend 48 block).reverse s
  ⟨(s.a + t.a) % 0x100000000, (s.b + t.b) % 0x100000000, (s.c + t.c) % 0x100000000,
    (s.d + t.d) % 0x100000000, (s.e + t.e) % 0x100000000, (s.f + t.f) % 0x100000000,
    (s.g + t.g) % 0x100000000, (s.h + t.h) % 0x100000000⟩

theorem compress_of (s : Sha256.Chain) {block : Array UInt32} (h : 16 ≤ block.size) :
    compress (.of s) (newest block) = .of (Sha256.compress s block) := by
  have hrounds := rounds_of Sha256.roundConstants 0 (Sha256.extend 48 block) s
  rw [List.drop_zero] at hrounds
  rw [compress, ← newest_extend 48 h, newest, List.reverse_reverse, roundConstants, hrounds]
  simp only [Chain.of, Sha256.compress, Sha256.Chain.add, UInt32.toNat_add]

/-! ## Messages -/

/-- A message on its way in. -/
structure Absorber where
  chain : Chain
  /-- The words of the block being filled, newest first. -/
  block : List Nat
  word : Nat
  filled : Nat

/-- The numbers of an absorber of words. -/
def Absorber.of (s : Sha256.Absorber) : Absorber :=
  ⟨.of s.chain, newest s.block, s.word.toNat, s.filled⟩

/-- Takes in one byte. -/
def Absorber.push (s : Absorber) (byte : UInt8) : Absorber :=
  let word := s.word <<< 8 % 0x100000000 ||| byte.toNat
  if s.filled < 3 then { s with word := word, filled := s.filled + 1 }
  else
    let block := word :: s.block
    if block.length < 16 then { s with block := block, word := 0, filled := 0 }
    else { chain := compress s.chain block, block := [], word := 0, filled := 0 }

theorem Absorber.push_of (s : Sha256.Absorber) (byte : UInt8) :
    (of s).push byte = of (s.push byte) := by
  have hword : s.word.toNat <<< 8 % 0x100000000 ||| byte.toNat =
      ((s.word <<< 8) ||| byte.toUInt32).toNat := by
    rw [UInt32.toNat_or, UInt32.toNat_shiftLeft, UInt8.toNat_toUInt32]
    rfl
  simp only [push, of, Sha256.Absorber.push, hword, ← newest_push, length_newest]
  by_cases hfilled : s.filled < 3
  · rw [if_pos hfilled, if_pos hfilled]
  · rw [if_neg hfilled, if_neg hfilled]
    split
    · rfl
    -- the block is full, which is what a schedule needs
    · rename_i hfull
      rw [compress_of s.chain (Nat.le_of_not_lt hfull)]
      rfl

theorem Absorber.foldl_push_of (bytes : Octets) (s : Sha256.Absorber) :
    bytes.foldl push (of s) = of (bytes.foldl Sha256.Absorber.push s) := by
  induction bytes generalizing s with
  | nil => rfl
  | cons byte bytes ih => rw [List.foldl_cons, List.foldl_cons, push_of, ih]

/-- The four bytes of a word, most significant first. -/
def wordOctets (w : Nat) : Octets :=
  [.ofNat (w >>> 24), .ofNat (w >>> 16), .ofNat (w >>> 8), .ofNat w]

theorem wordOctets_toNat (w : UInt32) : wordOctets w.toNat = Sha256.wordOctets w := by
  simp only [wordOctets, Sha256.wordOctets, ← UInt8.toNat_inj, UInt8.toNat_ofNat',
    UInt32.toNat_toUInt8, UInt32.toNat_shiftRight, List.cons.injEq]
  exact ⟨rfl, rfl, rfl, trivial, trivial⟩

/-- The 32 bytes of a chain. -/
def Chain.octets (s : Chain) : Octets :=
  wordOctets s.a ++ wordOctets s.b ++ wordOctets s.c ++ wordOctets s.d ++
    wordOctets s.e ++ wordOctets s.f ++ wordOctets s.g ++ wordOctets s.h

theorem Chain.octets_of (s : Sha256.Chain) : (of s).octets = s.octets := by
  simp only [octets, of, wordOctets_toNat, Sha256.Chain.octets]

/-- The digest of a message. -/
def digest (message : Octets) : Octets :=
  let start : Absorber := ⟨.of Chain.start, [], 0, 0⟩
  ((padding message.length).foldl Absorber.push (message.foldl Absorber.push start)).chain.octets

end Numeral

/-- **The hash on numbers is the hash on words.** -/
theorem digest_eq (message : Octets) : digest message = Numeral.digest message := by
  have hstart : (⟨.of Chain.start, [], 0, 0⟩ : Numeral.Absorber) =
      .of ⟨Chain.start, #[], 0, 0⟩ := rfl
  rw [Numeral.digest, hstart, Numeral.Absorber.foldl_push_of, Numeral.Absorber.foldl_push_of]
  exact (Numeral.Chain.octets_of _).symm

end Sha256

namespace Id

/-- The identifier of content, computed by arithmetic. -/
def ofContentNumeral (kind : IdKind) (content : Octets) : Id kind :=
  let tagDigest := Sha256.Numeral.digest kind.tag.toUTF8.toList
  ⟨Sha256.Numeral.digest (tagDigest ++ tagDigest ++ content), rfl⟩

/-- An identifier of content may be computed by arithmetic. -/
theorem ofContent_eq (kind : IdKind) (content : Octets) :
    ofContent kind content = ofContentNumeral kind content := by
  ext1
  simp only [ofContent, ofContentNumeral, commitment, commitmentMessage, Sha256.digest_eq]

end Id

end StrictContract
