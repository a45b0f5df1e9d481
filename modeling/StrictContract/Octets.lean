/-! # Byte strings — little-endian integers, two's complement and hexadecimal text

A **byte string** is a list of bytes. The module fixes how integers of a known width are laid out
(least significant byte first), the byte-wise order that canonical sets and maps follow, and the
lower-case hexadecimal text of a byte string. Main statements: `Octets.toNat_ofNat` and
`Octets.ofNat_toNat`, the two directions of the integer layout. -/

namespace StrictContract

/-- A **byte string**. Comparison with `<` is byte-wise, a proper prefix coming first. -/
abbrev Octets : Type := List UInt8

namespace Octets

/-! ## Unsigned integers -/

/-- The **span** of a width: how many byte strings have it, and so how many numbers it holds. -/
def span : Nat → Nat
  | 0 => 1
  | width + 1 => 256 * span width

@[simp] theorem span_zero : span 0 = 1 := rfl

@[simp] theorem span_succ (width : Nat) : span (width + 1) = 256 * span width := rfl

/-- The `width` little-endian bytes of `n`; what does not fit is dropped. -/
def ofNat : Nat → Nat → Octets
  | 0, _ => []
  | width + 1, n => UInt8.ofNat (n % 256) :: ofNat width (n / 256)

/-- The natural number with the given little-endian bytes. -/
def toNat : Octets → Nat
  | [] => 0
  | b :: bs => b.toNat + 256 * toNat bs

@[simp] theorem ofNat_zero (n : Nat) : ofNat 0 n = [] := rfl

@[simp] theorem ofNat_succ (width n : Nat) :
    ofNat (width + 1) n = UInt8.ofNat (n % 256) :: ofNat width (n / 256) := rfl

@[simp] theorem toNat_nil : toNat [] = 0 := rfl

@[simp] theorem toNat_cons (b : UInt8) (bs : Octets) :
    toNat (b :: bs) = b.toNat + 256 * toNat bs := rfl

@[simp] theorem length_ofNat (width n : Nat) : (ofNat width n).length = width := by
  induction width generalizing n with
  | zero => rfl
  | succ width ih => simp [ih]

/-- Reading back the bytes of a number gives it modulo the span of their width. -/
theorem toNat_ofNat_mod (width n : Nat) : toNat (ofNat width n) = n % span width := by
  induction width generalizing n with
  | zero => simp [Nat.mod_one]
  | succ width ih =>
    have h : (UInt8.ofNat (n % 256)).toNat = n % 256 := by simp
    rw [ofNat_succ, toNat_cons, ih, h, span_succ, Nat.mod_mul]

/-- A number that fits its width is read back exactly. -/
theorem toNat_ofNat {width n : Nat} (h : n < span width) : toNat (ofNat width n) = n := by
  rw [toNat_ofNat_mod, Nat.mod_eq_of_lt h]

/-- Every byte string is below the span of its length. -/
theorem toNat_lt (bs : Octets) : toNat bs < span bs.length := by
  induction bs with
  | nil => simp
  | cons b bs ih =>
    rw [toNat_cons, List.length_cons, span_succ]
    have := b.toNat_lt
    omega

/-- Every byte string is the layout of the number it denotes. -/
theorem ofNat_toNat (bs : Octets) : ofNat bs.length (toNat bs) = bs := by
  induction bs with
  | nil => rfl
  | cons b bs ih =>
    have hb : b.toNat < 256 := b.toNat_lt
    rw [List.length_cons, ofNat_succ, toNat_cons]
    congr 1
    · rw [Nat.add_mul_mod_self_left, Nat.mod_eq_of_lt hb, UInt8.ofNat_toNat]
    · rw [Nat.add_mul_div_left _ _ (by decide), Nat.div_eq_of_lt hb, Nat.zero_add, ih]

/-! ## Signed integers -/

/-- The `width` bytes of `n` in two's complement, least significant byte first. -/
def ofInt (width : Nat) (n : Int) : Octets :=
  ofNat width (n % (span width : Int)).toNat

/-- The integer with the given two's-complement bytes. -/
def toInt (bs : Octets) : Int :=
  let n := toNat bs
  if 2 * n < span bs.length then n else (n : Int) - span bs.length

@[simp] theorem length_ofInt (width : Nat) (n : Int) : (ofInt width n).length = width := by
  simp [ofInt]

/-! ## Hexadecimal text -/

/-- The lower-case hexadecimal digit of a number below sixteen. -/
def hexDigit (n : Nat) : Char :=
  if n < 10 then Char.ofNat (48 + n) else Char.ofNat (87 + n)

/-- The value of a hexadecimal digit of either case. -/
def hexValue? (c : Char) : Option Nat :=
  if '0' ≤ c ∧ c ≤ '9' then some (c.toNat - 48)
  else if 'a' ≤ c ∧ c ≤ 'f' then some (c.toNat - 87)
  else if 'A' ≤ c ∧ c ≤ 'F' then some (c.toNat - 55)
  else none

/-- The two digits of a byte. -/
def hexPair (b : UInt8) : List Char :=
  [hexDigit (b.toNat / 16), hexDigit (b.toNat % 16)]

/-- The hexadecimal digits of a byte string, two for each byte. -/
def hexChars (bs : Octets) : List Char :=
  bs.flatMap hexPair

/-- The hexadecimal text of a byte string, two digits for each byte. -/
def toHex (bs : Octets) : String :=
  String.ofList (hexChars bs)

/-- Accumulates the bytes of a digit text, newest first. -/
def ofHexChars? : List Char → Octets → Option Octets
  | [], acc => some acc.reverse
  | [_], _ => none
  | hi :: lo :: rest, acc =>
    match hexValue? hi, hexValue? lo with
    | some h, some l => ofHexChars? rest (UInt8.ofNat (16 * h + l) :: acc)
    | _, _ => none

/-- The byte string with the given digits, two for each byte; nothing else may occur. -/
def ofHex? (s : String) : Option Octets :=
  ofHexChars? s.toList []

theorem hexValue?_hexDigit (n : Nat) (h : n < 16) : hexValue? (hexDigit n) = some n := by
  have : ∀ n : Fin 16, hexValue? (hexDigit n.val) = some n.val := by decide
  exact this ⟨n, h⟩

/-! ## Order -/

/-- Byte-wise order, as a test. -/
def le (a b : Octets) : Bool := decide (a ≤ b)

end Octets

end StrictContract
