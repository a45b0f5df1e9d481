import StrictContract.Failure
import StrictContract.Value.Keys

/-! # The order of values — which of two values comes first

Numbers, texts and byte strings are ordered among themselves, and sequences lexicographically by
their items; a tagged value is ordered as the pair of its name and its value. Other values, and
values of different kinds, cannot be compared. -/

namespace StrictContract.Value

/-- Whether one number, text or byte string comes strictly before another. -/
def scalarPrecedes : Value → Value → Except Failure Bool
  | text s, text t => .ok (decide (s < t))
  | v, w =>
    match v.number?, w.number?, v.octets?, w.octets? with
    | some m, some n, _, _ => .ok (decide (m < n))
    | _, _, some x, some y => .ok (!y.le x)
    | _, _, _, _ =>
      match v.codePoints?, w.codePoints? with
      | some ps, some qs => .ok (CodePoint.precede ps qs)
      | _, _ => misuse .wrongType

mutual

/-- Whether one value comes strictly before another. -/
def precedes : Value → Value → Except Failure Bool
  | list xs, list ys => precedesItems xs ys
  | tuple xs, tuple ys => precedesItems xs ys
  | tuple xs, tagged variant value =>
    match xs with
    | [] => .ok true
    | x :: rest =>
      if !same x (text variant) then scalarPrecedes x (text variant)
      else
        match rest with
        | [] => .ok true
        | y :: _ => if same y value then .ok false else precedes y value
  | tagged variant value, tuple ys => pairPrecedes variant value ys
  | tagged variant value, tagged variant' value' =>
    if variant ≠ variant' then .ok (decide (variant < variant'))
    else if same value value' then .ok false else precedes value value'
  | v, w => scalarPrecedes v w

/-- Whether one sequence comes strictly before another: the first difference decides. -/
def precedesItems : List Value → List Value → Except Failure Bool
  | [], ys => .ok !ys.isEmpty
  | _ :: _, [] => .ok false
  | x :: xs, y :: ys => if same x y then precedesItems xs ys else precedes x y

/-- Whether the pair of a text and a value comes strictly before a sequence. -/
def pairPrecedes (s : String) (v : Value) : List Value → Except Failure Bool
  | [] => .ok false
  | text t :: rest =>
    if s ≠ t then .ok (decide (s < t))
    else
      match rest with
      | [] => .ok false
      | y :: more => if same v y then .ok !more.isEmpty else precedes v y
  | x :: _ => scalarPrecedes (text s) x

end

/-- Puts an item behind all items of an ascending list that do not come after it. -/
def insertOn {α : Type} (key : α → Value) (a : α) : List α → Except Failure (List α)
  | [] => .ok [a]
  | b :: rest => do
    if ← precedes (key a) (key b) then return a :: b :: rest
    return b :: (← insertOn key a rest)

/-- The items in ascending order of their keys; items with equal keys keep their order. -/
def sortOn {α : Type} (key : α → Value) (items : List α) : Except Failure (List α) :=
  items.foldlM (fun sorted a => insertOn key a sorted) []

end StrictContract.Value
