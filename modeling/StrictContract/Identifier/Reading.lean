import StrictContract.Digest.Commitment
import StrictContract.Text.Blank

/-! # Reading identifiers — from bytes and from text

A byte string is read from its hexadecimal text, in which ASCII blanks may separate the byte pairs.
An identifier is read from exactly 32 bytes, or from their text in the order in which the identifier
is shown; blanks around it are ignored. -/

namespace StrictContract

namespace Octets

/-- Accumulates the bytes of a digit text from a position on, newest first. The result is an error
at the position of the first character that does not belong there. -/
def ofSpacedHexChars : List Char → Nat → Octets → Except Nat Octets
  | [], _, acc => .ok acc.reverse
  | [c], i, acc =>
    if Text.isAsciiBlank c then .ok acc.reverse
    else .error (if (hexValue? c).isSome then i + 1 else i)
  | hi :: lo :: rest, i, acc =>
    if Text.isAsciiBlank hi then ofSpacedHexChars (lo :: rest) (i + 1) acc
    else
      match hexValue? hi, hexValue? lo with
      | some h, some l => ofSpacedHexChars rest (i + 2) (UInt8.ofNat (16 * h + l) :: acc)
      | some _, none => .error (i + 1)
      | none, _ => .error i

/-- The bytes of a digit text. A character outside ASCII is an error before any other. -/
def ofSpacedHex (cs : List Char) : Except Nat Octets :=
  match cs.findIdx? fun c => decide (0x80 ≤ c.toNat) with
  | some i => .error i
  | none => ofSpacedHexChars cs 0 []

/-- The byte string that a text shows. -/
def ofText (text : String) : Except Failure Octets :=
  (ofSpacedHex text.toList).mapError fun position => .misuse (.badValue (.notHex position))

end Octets

namespace Id

/-- The identifier with the given bytes. -/
def ofOctets? (kind : IdKind) (octets : Octets) : Except Failure (Id kind) :=
  if h : octets.length = 32 then .ok ⟨octets, h⟩
  else .error (.strict (.of kind.name (.identifierLength kind.name octets.length)))

/-- The identifier that a text shows. -/
def ofText? (kind : IdKind) (text : String) : Except Failure (Id kind) :=
  match Octets.ofSpacedHex (Text.trim text.toList) with
  | .error _ => .error (.strict (.of kind.name .invalidHex))
  | .ok octets => ofOctets? kind (if kind = .transaction then octets.reverse else octets)

/-- The identifier of content, for kinds that have a domain tag. -/
def commit (kind : IdKind) (content : Octets) : Except Failure (Id kind) := do
  ofOctets? kind (← StrictContract.commit content kind.tag)

end Id

end StrictContract
