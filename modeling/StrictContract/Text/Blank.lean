/-! # Blanks — the characters that separate words

The **blanks** are the white-space characters of Unicode together with the four information
separators of ASCII. The smaller class of ASCII blanks is what may stand between byte pairs. -/

namespace StrictContract.Text

/-- The code points of the blanks. -/
def blanks : List Nat :=
  [0x09, 0x0a, 0x0b, 0x0c, 0x0d, 0x1c, 0x1d, 0x1e, 0x1f, 0x20, 0x85, 0xa0, 0x1680,
   0x2000, 0x2001, 0x2002, 0x2003, 0x2004, 0x2005, 0x2006, 0x2007, 0x2008, 0x2009, 0x200a,
   0x2028, 0x2029, 0x202f, 0x205f, 0x3000]

/-- Whether a character is a blank. -/
def isBlank (c : Char) : Bool := blanks.contains c.toNat

/-- Whether a character is one of the six blanks of ASCII: space, tab, line feed, vertical tab, form
feed, carriage return. -/
def isAsciiBlank (c : Char) : Bool := [0x09, 0x0a, 0x0b, 0x0c, 0x0d, 0x20].contains c.toNat

/-- The characters without the blanks at both ends. -/
def trim (cs : List Char) : List Char :=
  ((cs.dropWhile isBlank).reverse.dropWhile isBlank).reverse

end StrictContract.Text
