/-! # Durations — how numbers of milliseconds are shown

A **duration** is a whole number of milliseconds. It is shown with two places after the point, as
binary floating-point numbers of double precision hold it: from `1 <<< 53` on not every integer is
held, and the nearest one that is stands for it. Durations beyond their range cannot be shown. -/

namespace StrictContract.Duration

/-- The nearest multiple of `1 <<< shift`; of two nearest ones the multiple that is even. -/
def nearestMultiple (shift n : Nat) : Nat :=
  let unit := 1 <<< shift
  let quotient := n / unit
  let twice := 2 * (n % unit)
  if unit < twice ∨ (twice = unit ∧ quotient % 2 = 1) then (quotient + 1) * unit
  else quotient * unit

/-- The integer of 53 significant binary digits that is nearest to a number. -/
def nearest (n : Nat) : Nat := nearestMultiple (n.log2 - 52) n

/-- The text of a duration, unless it is beyond the range of what can be shown. -/
def text? (milliseconds : Int) : Option String :=
  let magnitude := nearest milliseconds.natAbs
  if 1 <<< 1024 ≤ magnitude then none
  else some ((if milliseconds < 0 then "-" else "") ++ toString magnitude ++ ".00")

end StrictContract.Duration
