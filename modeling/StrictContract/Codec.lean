import StrictContract.Codec.Charset
import StrictContract.Enumeration
import StrictContract.Identifier
import StrictContract.RecordType

/-! # Codecs — descriptions of canonical encodings

A **codec** describes a type of values together with its canonical encoding. The encoding has one
form for each value: integers are little-endian of fixed width, lengths are prefixed in the smallest
width that covers the declared maximum, sets and maps are written in strictly ascending order of
their element or key encodings. -/

namespace StrictContract

/-! ## Bounds -/

/-- The number of bytes of a length prefix for a declared maximum of up to four bytes. -/
def prefixWidth (max : Nat) : Nat :=
  if max ≤ 0xff then 1
  else if max ≤ 0xffff then 2
  else if max ≤ 0xffffff then 3
  else 4

/-- **Bounds** on a length, both ends included. -/
structure Bounds where
  min : Nat
  max : Nat
  ordered : min ≤ max := by decide
  small : max ≤ 0xffffffff := by decide
deriving DecidableEq

namespace Bounds

/-- Whether a length is within the bounds. -/
def admits (b : Bounds) (n : Nat) : Bool := decide (b.min ≤ n ∧ n ≤ b.max)

/-- The width of the length prefix. -/
def width (b : Bounds) : Nat := prefixWidth b.max

/-- The length prefix. -/
def lengthPrefix (b : Bounds) (n : Nat) : Octets := Octets.ofNat b.width n

/-- The length prefix of every admitted length fits its width. -/
theorem lt_of_admits {b : Bounds} {n : Nat} (h : b.admits n = true) : n < Octets.span b.width := by
  have hn : n ≤ b.max := (of_decide_eq_true h).2
  have hs := b.small
  unfold width prefixWidth
  split
  · simp; omega
  · split
    · simp; omega
    · split <;> simp <;> omega

/-- Lengths that one byte counts. -/
def tiny : Bounds := { min := 0, max := 0xff }

/-- Lengths that one byte counts, zero excepted. -/
def tinyNonempty : Bounds := { min := 1, max := 0xff }

/-- Lengths that two bytes count. -/
def short : Bounds := { min := 0, max := 0xffff }

/-- Lengths that two bytes count, zero excepted. -/
def shortNonempty : Bounds := { min := 1, max := 0xffff }

/-- Lengths of names, less the first character. -/
def nameLength : Bounds := { min := 0, max := 99 }

end Bounds

/-! ## Codecs -/

/-- What a set is read as. -/
inductive SetForm where
  /-- A set, in which equal elements coincide. -/
  | members
  /-- A sequence of the elements in canonical order. -/
  | sequence
deriving DecidableEq

/-- What a map is read as. -/
inductive MapForm where
  /-- A mapping, in which equal keys coincide. -/
  | mapping
  /-- A sequence of pairs in canonical order; such a sequence may be written, too. -/
  | pairs
deriving DecidableEq

/-- What a struct is read as. -/
inductive StructForm where
  /-- A mapping from field names to values. -/
  | mapping
  /-- A record of the given type of this library. -/
  | record (type : String)
  /-- A record of a type that the struct declares. -/
  | declared (type : RecordType)
  /-- A type system, which is checked when it is read. -/
  | typeSystem
deriving DecidableEq

/-- A **codec**. -/
inductive Codec where
  /-- The type of the null value alone, without any bytes. -/
  | unit
  /-- Booleans in one byte. -/
  | bool
  /-- Unicode scalar values in four bytes. -/
  | unicode
  /-- Unsigned integers of a number of bytes. -/
  | uint (size : Nat)
  /-- Integers in two's complement of a number of bytes. -/
  | sint (size : Nat)
  /-- Byte strings of one length, without a prefix. -/
  | byteArray (size : Nat)
  /-- Identifiers of a kind. -/
  | id (kind : IdKind)
  /-- Byte strings behind a length prefix. -/
  | bytes (bounds : Bounds) (label : Option String)
  /-- ASCII strings. When the first character has a charset of its own, it stands in front of the
  length prefix and the bounds count the remaining characters. -/
  | ascii (first rest : Charset) (bounds : Bounds) (label : Option String)
  /-- Sequences behind a length prefix. -/
  | list (item : Codec) (bounds : Bounds) (label : Option String)
  /-- Sets in ascending order of their encoded elements. -/
  | set (item : Codec) (bounds : Bounds) (form : SetForm) (label : Option String)
  /-- Maps in ascending order of their encoded keys. -/
  | map (key value : Codec) (bounds : Bounds) (form : MapForm) (label : Option String)
  /-- Sequences of one length, without a prefix. -/
  | array (item : Codec) (count : Nat)
  /-- An optional value behind a presence byte. -/
  | option (inner : Codec)
  /-- Sequences with a codec for each position. -/
  | tuple (items : List Codec)
  /-- Named fields in declaration order. A **wrapped** struct stands for its only field. -/
  | struct (name : String) (fields : List (String × Codec)) (form : StructForm) (wrapped : Bool)
  /-- One of several variants behind a discriminant byte, in ascending order of the bytes. -/
  | union (name : String) (variants : List (Nat × String × Codec))
  /-- Members of an enumeration as a discriminant byte. -/
  | enumeration (decl : Enumeration)

namespace Codec

/-- The charset of a string's first character when it is not that of the others. -/
def isSplit (first rest : Charset) : Bool := first != rest

/-- The number of characters that stand in front of the length prefix of a string. -/
def headLength (first rest : Charset) : Nat := if isSplit first rest then 1 else 0

mutual

/-- The name of a codec. -/
def name : Codec → String
  | unit => "Unit"
  | bool => "Bool"
  | unicode => "Unicode"
  | uint size => s!"U{8 * size}"
  | sint size => s!"I{8 * size}"
  | byteArray size => s!"Bytes{size}"
  | id kind => kind.name
  | bytes b label => label.getD s!"Bytes[{b.min}..{b.max}]"
  | ascii first rest _ label => label.getD s!"Ascii[{first.name},{rest.name}]"
  | list item _ label => label.getD ("List<" ++ name item ++ ">")
  | set item _ _ label => label.getD ("Set<" ++ name item ++ ">")
  | map key value _ _ label => label.getD ("Map<" ++ name key ++ "," ++ name value ++ ">")
  | array item count => "[" ++ name item ++ s!"; {count}]"
  | option inner => "Option<" ++ name inner ++ ">"
  | tuple items => "(" ++ ", ".intercalate (names items) ++ ")"
  | struct name _ _ _ => name
  | union name _ => name
  | enumeration decl => decl.name

/-- The names of several codecs. -/
def names : List Codec → List String
  | [] => []
  | c :: rest => name c :: names rest

end

/-- The name of the kind of a codec. -/
def kindName : Codec → String
  | unit => "UnitType"
  | bool => "BoolType"
  | unicode => "UnicodeChar"
  | uint _ => "UInt"
  | sint _ => "SInt"
  | byteArray _ => "ByteArray"
  | id _ => "ByteArray"
  | bytes .. => "Bytes"
  | ascii .. => "AsciiString"
  | list .. => "ListOf"
  | set .. => "SetOf"
  | map .. => "MapOf"
  | array .. => "ArrayOf"
  | option _ => "Option"
  | tuple _ => "TupleOf"
  | struct .. => "Struct"
  | union .. => "Union"
  | enumeration _ => "Enum"

/-- Whether the values of a codec tell on their own that they are of it. -/
def discriminated : Codec → Bool
  | id _ => true
  | struct _ _ (.record _) _ => true
  | struct _ _ (.declared _) _ => true
  | struct _ _ .typeSystem _ => true
  | enumeration _ => true
  | _ => false

end Codec

end StrictContract
