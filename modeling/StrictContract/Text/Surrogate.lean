import StrictContract.Text.Quoted

/-! # Surrogates — texts that are no strings of characters

A **code point** is a character or a **surrogate**, one of the 2048 code points that no character has.
A text may hold surrogates: such a **broken** text is given by its characters in front of the first
surrogate, that surrogate, and the code points behind. In messages a surrogate appears as its escape. -/

namespace StrictContract

/-- A **surrogate**, counted from the first one. -/
abbrev Surrogate : Type := Fin 0x800

/-- A **code point**. -/
inductive CodePoint where
  | character (c : Char)
  | surrogate (s : Surrogate)
deriving DecidableEq

namespace CodePoint

/-- The number of a code point. -/
def toNat : CodePoint → Nat
  | character c => c.toNat
  | surrogate s => 0xd800 + s

/-- How a code point appears, given how characters do. -/
def shown (f : Char → String) : CodePoint → String
  | character c => f c
  | surrogate s => "\\u" ++ Text.hexPadded 4 (0xd800 + s)

/-- The character that a code point is. -/
def char? : CodePoint → Option Char
  | character c => some c
  | surrogate _ => none

/-- The code points of a string. -/
def ofString (s : String) : List CodePoint := s.toList.map character

end CodePoint

/-- A **broken** text: one with a surrogate in it. -/
structure BrokenText where
  front : List Char
  first : Surrogate
  behind : List CodePoint
deriving DecidableEq

namespace BrokenText

/-- The code points of a broken text. -/
def codePoints (t : BrokenText) : List CodePoint :=
  t.front.map .character ++ .surrogate t.first :: t.behind

/-- A broken text as it appears, given how its characters do. -/
def shownBy (t : BrokenText) (f : Char → String) : String :=
  String.join (t.codePoints.map (CodePoint.shown f))

/-- A broken text as it appears in a message. -/
def shown (t : BrokenText) : String := t.shownBy Char.toString

/-- The quoted form of a broken text. -/
def quoted (t : BrokenText) : String :=
  let q := Text.quoteFor (t.codePoints.filterMap CodePoint.char?)
  q.toString ++ t.shownBy (Text.escapeChar q Text.isPrintable) ++ q.toString

end BrokenText

/-- Whether one row of code points comes strictly before another: by the numbers of the first that
differ. -/
def CodePoint.precede (ps qs : List CodePoint) : Bool :=
  decide (ps.map CodePoint.toNat < qs.map CodePoint.toNat)

end StrictContract
