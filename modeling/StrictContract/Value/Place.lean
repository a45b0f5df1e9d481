import StrictContract.Value

/-! # Places — the order in which a set shows its items

A set keeps its items in a row of **places**, of which there is a power of two. An item has a
**number**, which equal values share; from it follows the sequence of places that the item may take,
and it takes the first one that is free. A row that is filled to three fifths is replaced by a
longer one, in which the items take their places anew. A set shows its items from the first place to
the last. -/

namespace StrictContract

/-! ## Rows of places -/

/-- A **row** of places: how many there are, and for each item its place and its number. -/
structure Row (α : Type) where
  size : Nat
  taken : List (Nat × Nat × α)

namespace Row

/-- The shortest row, without items. -/
def empty {α : Type} : Row α := ⟨8, []⟩

/-- Whether a place is free. -/
def isFree {α : Type} (row : Row α) (place : Nat) : Bool :=
  row.taken.all fun (p, _, _) => p != place

/-- The first free place of those that an item may take: ten places in a row, if there are so many
left, then as many elsewhere. `rounds` bounds how often the item has to move on. -/
def findPlace {α : Type} (row : Row α) : Nat → Nat → Nat → Nat
  | 0, place, _ => place
  | rounds + 1, place, rest =>
    let run := if place + 9 < row.size then 10 else 1
    match (List.range run).find? fun i => row.isFree (place + i) with
    | some i => place + i
    | none =>
      let rest := rest / 32
      findPlace row rounds ((place * 5 + 1 + rest) % row.size) rest

/-- Gives an item a place. -/
def put {α : Type} (row : Row α) (number : Nat) (item : α) : Row α :=
  let place := row.findPlace (row.size + 16) (number % row.size) number
  { row with taken := (place, number, item) :: row.taken }

/-- The items with their numbers, from the first place to the last. -/
def inOrder {α : Type} (row : Row α) : List (Nat × α) :=
  (row.taken.mergeSort fun a b => decide (a.1 ≤ b.1)).map Prod.snd

/-- The smallest power of two from `size` on that is above a bound; there are `steps` to try. -/
def sizeAbove (bound : Nat) : Nat → Nat → Nat
  | 0, size => size
  | steps + 1, size => if size ≤ bound then sizeAbove bound steps (2 * size) else size

/-- Replaces a row that is filled to three fifths by a longer one. -/
def lengthen {α : Type} (row : Row α) : Row α :=
  let count := row.taken.length
  if count * 5 < (row.size - 1) * 3 then row
  else
    let size := sizeAbove (if 50000 < count then count * 2 else count * 4) 64 8
    row.inOrder.foldl (fun longer (number, item) => longer.put number item) ⟨size, []⟩

end Row

/-- The items of a set in the order of their places, given their numbers. -/
def inPlaces {α : Type} (items : List (Nat × α)) : List α :=
  (items.foldl (fun row (number, item) => (row.put number item).lengthen) Row.empty).inOrder.map
    Prod.snd

/-! ## Numbers of values -/

namespace Value

/-- How many words there are. A **word** is a number of 64 bits. -/
def wordCount : Nat := 1 <<< 64

/-- The word that a number leaves. -/
def word (n : Nat) : Nat := n % wordCount

/-- The number of an integer. -/
def numberOfInt (n : Int) : Nat :=
  let magnitude := n.natAbs % ((1 <<< 61) - 1)
  if 0 ≤ n ∨ magnitude = 0 then magnitude
  else if magnitude = 1 then wordCount - 2
  else wordCount - magnitude

/-- The number of a sequence of values, given theirs. -/
def numberOfSequence (numbers : List Nat) : Nat :=
  let mixed := numbers.foldl (fun acc n =>
    let acc := word (acc + n * 14029467366897019727)
    let acc := word (acc <<< 31) + (acc >>> 33)
    word (acc * 11400714785074694791)) 2870177450012600261
  let mixed := word (mixed + (numbers.length ^^^ (2870177450012600261 ^^^ 3527539)))
  if mixed = wordCount - 1 then 1546275796 else mixed

/-- The number of a set of values, given theirs. -/
def numberOfSet (numbers : List Nat) : Nat :=
  let mixed := numbers.foldl (fun acc n =>
    acc ^^^ word ((n ^^^ 89869747 ^^^ word (n <<< 16)) * 3644798167)) 0
  let mixed := mixed ^^^ word ((numbers.length + 1) * 1927868237)
  let mixed := mixed ^^^ (mixed >>> 11) ^^^ (mixed >>> 25)
  let mixed := word (mixed * 69069 + 907133923)
  if mixed = wordCount - 1 then 590923713 else mixed

mutual

/-- The number of a value that is made of integers. -/
def placeNumber? : Value → Option Nat
  | bool b => some (if b then 1 else 0)
  | int n => some (numberOfInt n)
  | member _ _ tag => some (numberOfInt tag)
  | tuple items => (placeNumbers? items).map numberOfSequence
  | set items => (placeNumbers? items).map numberOfSet
  | declared _ fields => (fieldNumbers? fields).map numberOfSequence
  | _ => none

/-- The numbers of values. -/
def placeNumbers? : List Value → Option (List Nat)
  | [] => some []
  | v :: rest => do return (← placeNumber? v) :: (← placeNumbers? rest)

/-- The numbers of the fields of a record. -/
def fieldNumbers? : List (String × Value) → Option (List Nat)
  | [] => some []
  | (_, v) :: rest => do return (← placeNumber? v) :: (← fieldNumbers? rest)

end

/-- What belongs to the items of a set, in the order of their places; items without a number keep
their order. -/
def arranged {α : Type} (items : List Value) (texts : List α) : List α :=
  match placeNumbers? items with
  | some numbers => inPlaces (numbers.zip texts)
  | none => texts

end Value

end StrictContract
