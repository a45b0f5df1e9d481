import StrictContract.Text.Blank
import StrictContract.Text.Quoted

/-! # Numerals — integers written in decimal digits of any script

A **numeral** is an optional sign and a non-empty run of decimal digits, in which single
underscores may separate digits; blanks around it are ignored. The digits of every script count,
so the Arabic-Indic three is a three. The number of digits is limited. -/

namespace StrictContract.Text

/-- The starts of the decimal digit runs of Unicode 14; each is followed by the digits one to nine.
-/
def digitStarts : List Nat :=
  [0x30, 0x660, 0x6f0, 0x7c0, 0x966, 0x9e6, 0xa66, 0xae6, 0xb66, 0xbe6,
   0xc66, 0xce6, 0xd66, 0xde6, 0xe50, 0xed0, 0xf20, 0x1040, 0x1090, 0x17e0,
   0x1810, 0x1946, 0x19d0, 0x1a80, 0x1a90, 0x1b50, 0x1bb0, 0x1c40, 0x1c50, 0xa620,
   0xa8d0, 0xa900, 0xa9d0, 0xa9f0, 0xaa50, 0xabf0, 0xff10, 0x104a0, 0x10d30, 0x11066,
   0x110f0, 0x11136, 0x111d0, 0x112f0, 0x11450, 0x114d0, 0x11650, 0x116c0, 0x11730, 0x118e0,
   0x11950, 0x11c50, 0x11d50, 0x11da0, 0x16a60, 0x16ac0, 0x16b50, 0x1d7ce, 0x1d7d8, 0x1d7e2,
   0x1d7ec, 0x1d7f6, 0x1e140, 0x1e2f0, 0x1e950, 0x1fbf0]

/-- The value of a decimal digit of any script. -/
def digitValue? (c : Char) : Option Nat :=
  (digitStarts.find? fun start => decide (start ≤ c.toNat ∧ c.toNat ≤ start + 9)).map (c.toNat - ·)

/-- The number of digits that a numeral may have. -/
def maxDigits : Nat := 4300

/-- Why a text denotes no integer. -/
inductive NumeralFault where
  /-- The text is no numeral. -/
  | noNumeral (text : String)
  /-- The numeral has too many digits. -/
  | tooManyDigits (count : Nat)
deriving DecidableEq

/-- The wording of a numeral fault; of the text only the first characters are quoted. -/
def NumeralFault.message : NumeralFault → String
  | noNumeral text =>
    "invalid literal for int() with base 10: " ++ String.ofList ((quoted text).toList.take 200)
  | tooManyDigits count =>
    s!"Exceeds the limit ({maxDigits} digits) for integer string conversion: value has {count}"
      ++ " digits; use sys.set_int_max_str_digits() to increase the limit"

/-- Whether a character may stand around a numeral: a blank that is no information separator. -/
def isNumeralBlank (c : Char) : Bool := isBlank c && !(0x1c ≤ c.toNat && c.toNat ≤ 0x1f)

/-- The run of digits in front: how many there are, their value and what follows them. The run has
to start with a digit, and every underscore in it has to be followed by one. `count` and `value` are
those of the digits before. -/
def digitRun? : List Char → Nat → Nat → Option (Nat × Nat × List Char)
  | [], _, _ => none
  | c :: rest, count, value =>
    match digitValue? c with
    | none => none
    | some d =>
      match rest with
      | '_' :: more => digitRun? more (count + 1) (10 * value + d)
      | next :: more =>
        if (digitValue? next).isSome then digitRun? (next :: more) (count + 1) (10 * value + d)
        else some (count + 1, 10 * value + d, next :: more)
      | [] => some (count + 1, 10 * value + d, [])

/-- The natural number that a numeral without sign denotes. -/
def unsigned? (s : String) (cs : List Char) : Except NumeralFault Nat :=
  match digitRun? cs 0 0 with
  | none => .error (.noNumeral s)
  | some (count, n, rest) =>
    if maxDigits < count then .error (.tooManyDigits count)
    else if rest.all isNumeralBlank then .ok n
    else .error (.noNumeral s)

/-- The integer that a numeral denotes. -/
def integer? (s : String) : Except NumeralFault Int :=
  match s.toList.dropWhile isNumeralBlank with
  | '-' :: rest => (unsigned? s rest).map fun n => -(n : Int)
  | '+' :: rest => (unsigned? s rest).map Int.ofNat
  | rest => (unsigned? s rest).map Int.ofNat

end StrictContract.Text
