import StrictContract.Octets
import StrictContract.Text.Printable

/-! # Quoted text — strings and byte strings as they appear inside messages

A **quoted** string stands between single quotes, or between double quotes when it holds a single
quote and no double quote. The quote, the backslash and characters that are not printable are
escaped. A byte string is quoted the same way behind a `b`, with every byte outside printable ASCII
escaped. -/

namespace StrictContract.Text

/-- The hexadecimal digits of `n`, padded with zeros to `width` digits. -/
def hexPadded (width n : Nat) : String :=
  let digits := String.ofList (Nat.toDigits 16 n)
  String.ofList (List.replicate (width - digits.length) '0') ++ digits

/-- The quote that encloses a string: double when it holds a single quote and no double quote. -/
def quoteFor (cs : List Char) : Char :=
  if cs.contains '\'' && !cs.contains '"' then '"' else '\''

/-- The escape of a character that may not stand for itself, by the size of its code point. -/
def escapeCode (c : Char) : String :=
  let n := c.toNat
  if n < 0x100 then "\\x" ++ hexPadded 2 n
  else if n < 0x10000 then "\\u" ++ hexPadded 4 n
  else "\\U" ++ hexPadded 8 n

/-- How one character is written between the given quotes. -/
def escapeChar (quote : Char) (shown : Char → Bool) (c : Char) : String :=
  if c == quote || c == '\\' then String.ofList ['\\', c]
  else if c == '\n' then "\\n"
  else if c == '\r' then "\\r"
  else if c == '\t' then "\\t"
  else if shown c then c.toString
  else escapeCode c

/-- The quoted form of a string. -/
def quoted (s : String) : String :=
  let cs := s.toList
  let q := quoteFor cs
  q.toString ++ String.join (cs.map (escapeChar q isPrintable)) ++ q.toString

/-- Whether a byte, as a character, stands for itself in a quoted byte string. -/
def isPrintableAscii (c : Char) : Bool := decide (0x20 ≤ c.toNat ∧ c.toNat < 0x7f)

/-- The quoted form of a byte string. -/
def quotedOctets (bs : Octets) : String :=
  let cs := bs.map fun b => Char.ofNat b.toNat
  let q := quoteFor cs
  "b" ++ q.toString ++ String.join (cs.map (escapeChar q isPrintableAscii)) ++ q.toString

end StrictContract.Text
