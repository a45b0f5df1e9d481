import StrictContract.Text.Quoted

/-! # Scalars — how a text is written in a document

A text is written **plain** if nothing in it would be read as structure and the whole would not be
read as something other than a text. Otherwise it stands between single quotes, in which a quote is
written twice, or, if it holds characters that have to be escaped, between double quotes. -/

namespace StrictContract.Scalar

/-! ## Texts that would be read as something else -/

/-- Words that stand for no text: null, truth values, and the signs for merging and for a default.
-/
def reserved : List String :=
  ["", "~", "null", "Null", "NULL", "<<", "=", "yes", "Yes", "YES", "no", "No", "NO",
   "true", "True", "TRUE", "false", "False", "FALSE", "on", "On", "ON", "off", "Off", "OFF"]

/-- Whether a character is a decimal digit or an underscore. -/
def isDigitOrLine (c : Char) : Bool := c.isDigit || c == '_'

/-- Whether characters are minutes or seconds, each behind a colon; `fraction` tells whether a
fraction may follow the last. -/
def isSixties (fraction : Bool) : List Char → Bool
  | ':' :: a :: rest =>
    a.isDigit &&
      match rest with
      | [] => !fraction
      | '.' :: more => fraction && more.all isDigitOrLine
      | ':' :: more => isSixties fraction (':' :: more)
      | b :: more =>
        decide (a.toNat < '6'.toNat) && b.isDigit &&
          match more with
          | [] => !fraction
          | '.' :: more => fraction && more.all isDigitOrLine
          | more => isSixties fraction more
  | _ => false

/-- Whether unsigned characters are read as an integer. -/
def isInteger : List Char → Bool
  | ['0'] => true
  | '0' :: 'b' :: rest => !rest.isEmpty && rest.all fun c => c == '0' || c == '1' || c == '_'
  | '0' :: 'x' :: rest =>
    !rest.isEmpty && rest.all fun c => isDigitOrLine c || "abcdefABCDEF".toList.contains c
  | '0' :: rest => rest.all fun c => c == '_' || (c.isDigit && decide (c.toNat < '8'.toNat))
  | c :: rest =>
    c.isDigit &&
      match rest.dropWhile isDigitOrLine with
      | [] => true
      | more => isSixties false more
  | [] => false

/-- Whether characters are nothing, or an exponent with its sign. -/
def isExponent : List Char → Bool
  | [] => true
  | e :: sign :: digits =>
    (e == 'e' || e == 'E') && (sign == '+' || sign == '-') && !digits.isEmpty
      && digits.all Char.isDigit
  | _ => false

/-- Whether unsigned characters are read as a number with a fraction. -/
def isFraction (cs : List Char) : Bool :=
  [".inf", ".Inf", ".INF"].contains (String.ofList cs) ||
    match cs with
    | c :: rest =>
      c.isDigit &&
        match rest.dropWhile isDigitOrLine with
        | '.' :: more => isExponent (more.dropWhile isDigitOrLine)
        | more => isSixties true more
    | [] => false

/-- Whether characters are read as a number with a fraction that has no digits in front, or as no
number. -/
def isBareFraction : List Char → Bool
  | '.' :: c :: rest =>
    (c.isDigit && isExponent (rest.dropWhile isDigitOrLine))
      || ["nan", "NaN", "NAN"].contains (String.ofList (c :: rest))
  | _ => false

/-- Whether characters are read as a date. -/
def isDate (cs : List Char) : Bool :=
  cs.length == 10 && cs.zipIdx.all fun (c, i) => if i == 4 || i == 7 then c == '-' else c.isDigit

/-- What follows a run of digits in front, the number of which has to be between two bounds. -/
def afterDigits? (least most : Nat) (cs : List Char) : Option (List Char) :=
  let count := ((cs.take most).takeWhile Char.isDigit).length
  if least ≤ count then some (cs.drop count) else none

/-- What follows a character that has to stand in front. -/
def after? (c : Char) : List Char → Option (List Char)
  | d :: rest => if c == d then some rest else none
  | [] => none

/-- What follows the time of a day in front, which may end in a fraction of a second. -/
def afterTime? (cs : List Char) : Option (List Char) := do
  let cs ← after? ':' (← afterDigits? 1 2 cs)
  let cs ← afterDigits? 2 2 (← after? ':' (← afterDigits? 2 2 cs))
  match cs with
  | '.' :: rest => return rest.dropWhile Char.isDigit
  | cs => return cs

/-- Whether characters are the offset of a time zone. -/
def isZone : List Char → Bool
  | ['Z'] => true
  | sign :: rest =>
    (sign == '+' || sign == '-') &&
      match afterDigits? 1 2 rest with
      | some [] => true
      | some (':' :: minutes) => afterDigits? 2 2 minutes == some []
      | _ => false
  | [] => false

/-- Whether characters are read as a point in time: a date, a time of the day and possibly the
offset of a time zone. -/
def isTimestamp (cs : List Char) : Bool :=
  let rest : Option (List Char) := do
    let cs ← afterDigits? 1 2 (← after? '-' (← afterDigits? 4 4 cs))
    let cs ← afterDigits? 1 2 (← after? '-' cs)
    match cs with
    | 'T' :: more | 't' :: more => afterTime? more
    | ' ' :: more => afterTime? (more.dropWhile (· == ' '))
    | _ => none
  match rest with
  | some [] => true
  | some more => isZone (more.dropWhile (· == ' '))
  | none => false

/-- The characters without a sign in front. -/
def unsigned : List Char → List Char
  | '+' :: rest => rest
  | '-' :: rest => rest
  | cs => cs

/-- Whether a text, written plain, would be read as something else. -/
def isTyped (s : String) : Bool :=
  let cs := s.toList
  reserved.contains s || isInteger (unsigned cs) || isFraction (unsigned cs) || isBareFraction cs
    || isDate cs || isTimestamp cs

/-! ## Texts that would be read as structure -/

/-- Whether a character separates. -/
def isSpace (c : Char) : Bool := [' ', '\t', '\r', '\n', '\x00'].contains c

/-- Whether nothing or a separator follows. -/
def endsHere : List Char → Bool
  | [] => true
  | c :: _ => isSpace c

/-- Whether the first character would begin a structure. -/
def startsStructure : List Char → Bool
  | [] => false
  | c :: rest =>
    "#,[]\x7b\x7d&*!|>'\"%@\x60".toList.contains c
      || ((c == '?' || c == ':' || c == '-') && endsHere rest)

/-- Whether a later character would begin a structure: a colon before, a number sign after a
separator. -/
def holdsStructure : List Char → Bool
  | a :: b :: rest =>
    (b == ':' && endsHere rest) || (b == '#' && isSpace a) || holdsStructure (b :: rest)
  | _ => false

/-- Whether one of two kinds of characters is directly followed by the other. -/
def meets (p q : Char → Bool) : List Char → Bool
  | a :: b :: rest => (p a && q b) || meets p q (b :: rest)
  | _ => false

/-- Whether a character stands for itself in a document. -/
def isShown (c : Char) : Bool := c == '\n' || decide (0x20 ≤ c.toNat ∧ c.toNat ≤ 0x7e)

/-- Whether a text can be written without quotes. -/
def isPlain (s : String) : Bool :=
  let cs := s.toList
  let outer := [cs.head?, cs.getLast?].any fun c => c == some ' ' || c == some '\n'
  !isTyped s && !outer && cs.all isShown && !cs.contains '\n' && !startsStructure cs
    && !holdsStructure cs && !s.startsWith "---" && !s.startsWith "..."

/-- Whether a text can stand between single quotes. -/
def isQuotable (s : String) : Bool :=
  let cs := s.toList
  cs.all isShown && !meets (· == ' ') (· == '\n') cs && !meets (· == '\n') (· == ' ') cs

/-! ## Writing -/

/-- The column after which a line is broken where it may be. -/
def width : Nat := 80

/-- The end of a line and the margin of the next. -/
def lineEnd (indent : Nat) : String := "\n" ++ "".pushn ' ' indent

/-- The characters of a text that needs no escapes, where a quote is written as `quote`. A lone
space past the width is written as the end of a line; the lines after a run of line feeds, which is
written with one more, are indented. -/
def flow (quote : String) (indent : Nat) : Bool → Nat → List Char → String
  | _, _, [] => ""
  | afterSpace, column, ' ' :: rest =>
    let lone := !afterSpace && rest.head?.any (· != ' ')
    if lone && decide (width < column) then lineEnd indent ++ flow quote indent true indent rest
    else " " ++ flow quote indent true (column + 1) rest
  | _, column, '\'' :: rest => quote ++ flow quote indent false (column + quote.length) rest
  | _, _, '\n' :: rest =>
    if rest.head? == some '\n' then "\n" ++ flow quote indent false 0 rest
    else "\n" ++ lineEnd indent ++ flow quote indent false indent rest
  | _, column, c :: rest => c.toString ++ flow quote indent false (column + 1) rest

/-- The letter that stands for a character behind a backslash. -/
def shortEscapes : List (Char × Char) :=
  [('\x00', '0'), ('\x07', 'a'), ('\x08', 'b'), ('\t', 't'), ('\n', 'n'), ('\x0b', 'v'),
   ('\x0c', 'f'), ('\r', 'r'), ('\x1b', 'e'), ('"', '"'), ('\\', '\\'), ('\u0085', 'N'),
   ('\u00a0', '_'), ('\u2028', 'L'), ('\u2029', 'P')]

/-- What stands for a character between double quotes, if it does not stand for itself. -/
def escape? (c : Char) : Option String :=
  match shortEscapes.lookup c with
  | some letter => some ("\\" ++ letter.toString)
  | none =>
    let n := c.toNat
    if 0x20 ≤ n ∧ n ≤ 0x7e then none
    else if n ≤ 0xff then some ("\\x" ++ (Text.hexPadded 2 n).toUpper)
    else if n ≤ 0xffff then some ("\\u" ++ (Text.hexPadded 4 n).toUpper)
    else some ("\\U" ++ (Text.hexPadded 8 n).toUpper)

/-- The characters of a text between double quotes. Past the width a line ends, behind a backslash,
before a space and on either side of an escape, but at neither end of the text; a space that then
begins a line stands behind a backslash too. -/
def escaped (indent : Nat) (inside afterEscape : Bool) (column : Nat) : List Char → String
  | [] => ""
  | c :: rest =>
    let mayEnd := inside && !rest.isEmpty
    match escape? c with
    | some e =>
      let column := column + e.length
      if mayEnd && decide (width + 1 < column) then
        if rest.head? == some ' ' then
          e ++ "\\" ++ lineEnd indent ++ "\\" ++ escaped indent true true (indent + 1) rest
        else e ++ "\\" ++ lineEnd indent ++ escaped indent true true indent rest
      else e ++ escaped indent true true column rest
    | none =>
      if mayEnd && (c == ' ' || afterEscape) && decide (width < column) then
        if c == ' ' then
          "\\" ++ lineEnd indent ++ "\\ " ++ escaped indent true false (indent + 2) rest
        else "\\" ++ lineEnd indent ++ c.toString ++ escaped indent true false (indent + 1) rest
      else c.toString ++ escaped indent true false (column + 1) rest

/-- A text as it is written in a document from a column on, where further lines are indented. -/
def write (indent column : Nat) (s : String) : String :=
  if isPlain s then flow "'" indent true column s.toList
  else if isQuotable s then "'" ++ flow "''" indent true (column + 1) s.toList ++ "'"
  else "\"" ++ escaped indent false false (column + 1) s.toList ++ "\""

end StrictContract.Scalar
