/-! # Cutting texts — the parts on the two sides of a character

A text is **cut** at the first or at the last place of a character; the character itself belongs to
neither part. -/

namespace StrictContract.Text

/-- The parts before and after the first place of a character. -/
def cutFirst? (c : Char) (s : String) : Option (String × String) :=
  match s.toList.span (· != c) with
  | (_, []) => none
  | (front, _ :: back) => some (String.ofList front, String.ofList back)

/-- The parts before and after the last place of a character. -/
def cutLast? (c : Char) (s : String) : Option (String × String) :=
  match s.toList.reverse.span (· != c) with
  | (_, []) => none
  | (back, _ :: front) => some (String.ofList front.reverse, String.ofList back.reverse)

/-- The characters without one final line feed. -/
def chomp (cs : List Char) : List Char := if cs.getLast? = some '\n' then cs.dropLast else cs

end StrictContract.Text
