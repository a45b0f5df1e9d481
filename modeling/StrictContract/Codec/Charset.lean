/-! # Charsets — the named classes of ASCII characters that strings may be drawn from

A **charset** is one of nine classes of printable ASCII characters. Different names stand for
different classes, so charsets are compared by name. -/

namespace StrictContract

/-- A **charset**. -/
inductive Charset where
  | alpha
  | alphaCaps
  | alphaSmall
  | alphaNum
  | alphaCapsNum
  | alphaLodash
  | alphaNumLodash
  | alphaNumDash
  | printable
deriving DecidableEq

namespace Charset

/-- Every charset. -/
def all : List Charset :=
  [alpha, alphaCaps, alphaSmall, alphaNum, alphaCapsNum, alphaLodash, alphaNumLodash, alphaNumDash,
   printable]

/-- The name of a charset. -/
def name : Charset → String
  | alpha => "Alpha"
  | alphaCaps => "AlphaCaps"
  | alphaSmall => "AlphaSmall"
  | alphaNum => "AlphaNum"
  | alphaCapsNum => "AlphaCapsNum"
  | alphaLodash => "AlphaLodash"
  | alphaNumLodash => "AlphaNumLodash"
  | alphaNumDash => "AlphaNumDash"
  | printable => "Printable"

/-- The charset with a given name. -/
def ofName? (s : String) : Option Charset := all.find? fun cs => cs.name == s

/-- Whether a charset has a character. -/
def contains (cs : Charset) (c : Char) : Bool :=
  match cs with
  | alpha => c.isAlpha
  | alphaCaps => c.isUpper
  | alphaSmall => c.isLower
  | alphaNum => c.isAlphanum
  | alphaCapsNum => c.isUpper || c.isDigit
  | alphaLodash => c.isAlpha || c == '_'
  | alphaNumLodash => c.isAlphanum || c == '_'
  | alphaNumDash => c.isAlphanum || c == '-'
  | printable => decide (0x20 ≤ c.toNat ∧ c.toNat < 0x7f)

/-- Whether a text is one character of a charset. -/
def containsText (cs : Charset) (s : String) : Bool :=
  match s.toList with
  | [c] => cs.contains c
  | _ => false

/-- The printable ASCII characters in ascending order. -/
def printables : List Char := (List.range 95).map fun i => Char.ofNat (0x20 + i)

/-- The characters of a charset in ascending order. -/
def chars (cs : Charset) : List Char := printables.filter cs.contains

end Charset

end StrictContract
