import StrictContract.Text.Cut
import StrictContract.Value.Order
import StrictContract.Value.Rendering

/-! # Document schemas — which values are well-formed documents

A **document schema** says of which shape a value has to be. Checking a value gives the **places**
of all its errors, each place being the list of keys and indices that lead to it. A place is written
as a path that starts at the root `$`. -/

namespace StrictContract

/-! ## Patterns -/

/-- A **pattern** for texts. -/
inductive TextPattern where
  /-- Any text. -/
  | any
  /-- A letter or underscore and up to 99 letters, digits or underscores. -/
  | identifier
  /-- An identifier, or two of them with a dot between. -/
  | reference
deriving DecidableEq

namespace TextPattern

/-- Whether characters form an identifier. -/
def isIdentifier : List Char → Bool
  | [] => false
  | c :: rest =>
    (c.isAlpha || c == '_') && rest.all (fun d => d.isAlphanum || d == '_')
      && decide (rest.length ≤ 99)

/-- Whether characters form an identifier, or two of them with a dot between. -/
def isReference (cs : List Char) : Bool :=
  isIdentifier cs ||
    match cs.span (· != '.') with
    | (front, _ :: back) => isIdentifier front && isIdentifier back
    | (_, []) => false

/-- Whether characters match a pattern. -/
def admits : TextPattern → List Char → Bool
  | any => fun _ => true
  | identifier => isIdentifier
  | reference => isReference

/-- Whether a text matches a pattern; one line feed at its end does not count. -/
def accepts (p : TextPattern) (s : String) : Bool :=
  p.admits s.toList || p.admits (Text.chomp s.toList)

end TextPattern

/-! ## Schemas -/

/-- A **document schema**. -/
inductive DocumentSchema where
  /-- Any value. -/
  | anything
  /-- The null value. -/
  | null
  /-- A text that matches a pattern. -/
  | text (pattern : TextPattern)
  /-- An integer between two bounds, which belong to it. -/
  | integer (min max : Int)
  /-- One of some values. -/
  | among (values : List Value)
  /-- A list of items. -/
  | list (min : Nat) (max : Option Nat) (distinct : Bool) (item : DocumentSchema)
  /-- A list of two items. -/
  | pair (first second : DocumentSchema)
  /-- A mapping with known keys only, some of them required. -/
  | record (required : List String) (fields : List (String × DocumentSchema))
  /-- A mapping of which the keys are identifiers. -/
  | dictionary (min : Nat) (max : Option Nat) (item : DocumentSchema)
  /-- A value of exactly one of several schemas. -/
  | exactlyOne (alternatives : List DocumentSchema)

/-- The **place** of an error: the keys and indices that lead to it, outermost first. -/
abbrev Place : Type := List Value

namespace DocumentSchema

/-- Whether a value is a truth value. -/
def isTruth : Value → Bool
  | .bool _ => true
  | _ => false

/-- The items of a sequence other than a text. -/
def orderedItems? : Value → Option (List Value)
  | .list items => some items
  | .tuple items => some items
  | .tagged variant value => some [.text variant, value]
  | v => v.octets?.map fun octets => octets.map fun b => .ofNat b.toNat

mutual

/-- Whether two values are the same where a truth value is no number. Sequences of all kinds are
compared item by item, mappings entry by entry. -/
def identical : Value → Value → Bool
  | .bool a, w => match w with | .bool b => a == b | _ => false
  | .list xs, w => match orderedItems? w with | some ys => identicalItems xs ys | none => false
  | .tuple xs, w => match orderedItems? w with | some ys => identicalItems xs ys | none => false
  | .tagged variant value, w =>
    match orderedItems? w with
    | some [.text variant', value'] => variant == variant' && identical value value'
    | _ => false
  | .map xs, w =>
    match w with
    | .map ys => xs.length == ys.length && identicalEntries xs ys
    | _ => false
  | v, w =>
    match v.octets?, orderedItems? w with
    | some octets, some ys =>
      octets.length == ys.length
        && (octets.zip ys).all fun (b, y) => !isTruth y && (Value.ofNat b.toNat).same y
    | some _, none => false
    | none, _ => !isTruth w && v.same w

/-- Whether the items of two sequences are the same in order. -/
def identicalItems : List Value → List Value → Bool
  | [], [] => true
  | x :: xs, y :: ys => identical x y && identicalItems xs ys
  | _, _ => false

/-- Whether every entry of a mapping is in another one. -/
def identicalEntries : List (Value × Value) → List (Value × Value) → Bool
  | [], _ => true
  | (k, v) :: rest, ys =>
    (match Value.lookup? k ys with | some w => identical v w | none => false)
      && identicalEntries rest ys

end

/-- Whether an item is the same as its neighbour. -/
def repeatsNext : List Value → Bool
  | v :: w :: rest => identical v w || repeatsNext (w :: rest)
  | _ => false

/-- Whether an item occurs twice. -/
def repeatsAny : List Value → Bool
  | [] => false
  | v :: rest => rest.any (identical v) || repeatsAny rest

/-- The items in ascending order, if all of them can be compared. -/
def sorted? (items : List Value) : Option (List Value) :=
  if items.any isTruth then none else (Value.sortOn id items).toOption

/-- Whether items repeat: neighbours in ascending order, or any two if the items have no order. -/
def repeats (items : List Value) : Bool :=
  match sorted? items with
  | some sorted => repeatsNext sorted
  | none => repeatsAny items

/-- Whether a number of items is admitted. -/
def admitsCount (min : Nat) (max : Option Nat) (n : Nat) : Bool :=
  decide (min ≤ n) && max.all fun m => decide (n ≤ m)

/-- One error at a place, unless a condition holds. -/
def errorUnless (place : Place) (holds : Bool) : List Place := if holds then [] else [place]

/-- Whether a key is an identifier. -/
def isIdentifier : Value → Bool
  | .text s => TextPattern.identifier.accepts s
  | _ => false

mutual

/-- The places of the errors of a value that stands at a place. -/
def errors : DocumentSchema → Place → Value → List Place
  | anything, _, _ => []
  | null, place, v => errorUnless place (match v with | .null => true | _ => false)
  | text pattern, place, v =>
    errorUnless place (match v with
      | .text s => pattern.accepts s
      | .broken _ => pattern == .any
      | _ => false)
  | integer min max, place, v =>
    errorUnless place (match v with | .int n => decide (min ≤ n ∧ n ≤ max) | _ => false)
  | among values, place, v => errorUnless place (values.any (identical v))
  | list min max distinct item, place, v =>
    match v with
    | .list items =>
      errorUnless place (admitsCount min max items.length)
        ++ errorUnless place (!distinct || !repeats items)
        ++ (items.zipIdx.map fun (x, i) => errors item (place ++ [.ofNat i]) x).flatten
    | _ => [place]
  | pair first second, place, v =>
    match v with
    | .list items =>
      errorUnless place (items.length == 2)
        ++ (items.take 1).flatMap (errors first (place ++ [.ofNat 0]))
        ++ ((items.drop 1).take 1).flatMap (errors second (place ++ [.ofNat 1]))
    | _ => [place]
  | record required fields, place, v =>
    match v with
    | .map entries =>
      required.flatMap (fun name => errorUnless place (v.entry? name).isSome)
        ++ errorUnless place
          (entries.all fun (k, _) => fields.any fun (name, _) => k.same (.text name))
        ++ errorsOfFields fields place v
    | _ => [place]
  | dictionary min max item, place, v =>
    match v with
    | .map entries =>
      errorUnless place (admitsCount min max entries.length)
        ++ entries.flatMap (fun (k, _) => errorUnless place (isIdentifier k))
        ++ entries.flatMap fun (k, x) => errors item (place ++ [k]) x
    | _ => [place]
  | exactlyOne alternatives, place, v =>
    errorUnless place (countAccepting alternatives place v == 1)

/-- The places of the errors of the known fields of a mapping. -/
def errorsOfFields : List (String × DocumentSchema) → Place → Value → List Place
  | [], _, _ => []
  | (name, s) :: rest, place, v =>
    (match v.entry? name with
      | some x => errors s (place ++ [.text name]) x
      | none => []) ++ errorsOfFields rest place v

/-- How many schemas a value is of. -/
def countAccepting : List DocumentSchema → Place → Value → Nat
  | [], _, _ => 0
  | s :: rest, place, v =>
    (if (errors s place v).isEmpty then 1 else 0) + countAccepting rest place v

end

/-! ## Paths -/

/-- Whether characters are a letter followed by letters, digits and underscores. -/
def isPlain : List Char → Bool
  | [] => false
  | c :: rest => c.isAlpha && rest.all fun d => d.isAlphanum || d == '_'

/-- A character between the quotes of a path. -/
def escapeInPath (c : Char) : String :=
  if c == '\\' then "\\\\" else if c == '\'' then "\\'" else c.toString

/-- A name in a path: plain names after a dot, others quoted in brackets. -/
def nameSegment (s : String) : String :=
  if isPlain s.toList || isPlain (Text.chomp s.toList) then "." ++ s
  else "['" ++ String.join (s.toList.map escapeInPath) ++ "']"

/-- What a key adds to a path. Null keys do not show, and only names and numbers can. -/
def segment : Value → Except Failure String
  | .null => .ok ""
  | .text s => .ok (nameSegment s)
  | .broken t => .ok ("['" ++ t.shownBy escapeInPath ++ "']")
  | v => if v.number?.isSome then .ok ("[" ++ v.display ++ "]") else misuse .wrongType

/-- The path of a place. -/
def path (place : Place) : Except Failure String := do
  return "$" ++ String.join (← place.mapM segment)

/-- The paths of all errors of a document, in ascending order. -/
def check (s : DocumentSchema) (document : Value) : Except Failure (List String) := do
  let paths ← (s.errors [] document).mapM path
  return paths.mergeSort fun a b => decide (a ≤ b)

end DocumentSchema

end StrictContract
