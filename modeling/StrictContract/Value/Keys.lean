import StrictContract.Digest.Sha256
import StrictContract.Value

/-! # Values as keys — when two values are the same entry of a set or a mapping

Two values are the **same key** when they compare equal: numbers, booleans and members by the number
they stand for, byte strings and identifiers by their bytes, sets and mappings without regard to
order, a tagged value as the pair of its name and its value, witnesses by the transaction they name.
Lists and mappings can be changed and are therefore no keys. -/

namespace StrictContract.Value

/-- The bytes of the id of the transaction that a record of a witness names. -/
def witnessed? : Value → Option Octets
  | record "WitnessTxid" [(_, id .transaction txid)] => some txid.octets
  | record "WitnessTx" [(_, bytes raw)] => some (Sha256.doubleDigest raw)
  | _ => none

mutual

/-- Whether two values compare equal. -/
def same : Value → Value → Bool
  | null, null => true
  | text s, text t => s == t
  | broken s, broken t => s == t
  | list xs, list ys => sameItems xs ys
  | tuple xs, tuple ys => sameItems xs ys
  | tuple xs, tagged variant value => sameItems xs [text variant, value]
  | tagged variant value, tuple [name, other] =>
    (match name with | text s => s == variant | _ => false) && same value other
  | tagged variant value, tagged variant' value' => variant == variant' && same value value'
  | set xs, set ys => xs.length == ys.length && sameMembers xs ys
  | map xs, map ys => xs.length == ys.length && sameEntries xs ys
  | record type fields, w =>
    match (record type fields).witnessed?, (record type fields).octets?, w with
    | some txid, _, w => w.witnessed? == some txid
    | _, some octets, w => w.octets? == some octets
    | _, _, record type' fields' => type == type' && sameFields fields fields'
    | _, _, _ => false
  | declared type fields, declared type' fields' => type == type' && sameFields fields fields'
  | feature sort shown, feature sort' shown' => sort == sort' && shown == shown'
  | bool b, w => w.number? == some (if b then 1 else 0)
  | int n, w => w.number? == some n
  | member _ _ tag, w => w.number? == some tag
  | bytes octets, w => w.octets? == some octets
  | id _ identifier, w => w.octets? == some identifier.octets
  | _, _ => false

/-- Whether two sequences have the same items in the same order. -/
def sameItems : List Value → List Value → Bool
  | [], [] => true
  | x :: xs, y :: ys => same x y && sameItems xs ys
  | _, _ => false

/-- Whether every item of the first list is in the second. -/
def sameMembers : List Value → List Value → Bool
  | [], _ => true
  | x :: xs, ys => ys.any (same x) && sameMembers xs ys

/-- Whether every entry of the first mapping is in the second. -/
def sameEntries : List (Value × Value) → List (Value × Value) → Bool
  | [], _ => true
  | (k, v) :: rest, ys => ys.any (fun (k', v') => same k k' && same v v') && sameEntries rest ys

/-- Whether two records of one type have the same fields. -/
def sameFields : List (String × Value) → List (String × Value) → Bool
  | [], [] => true
  | (name, v) :: rest, (name', v') :: rest' => name == name' && same v v' && sameFields rest rest'
  | _, _ => false

end

mutual

/-- Whether a value may be a key. -/
def isKey : Value → Bool
  | list _ => false
  | map _ => false
  | tuple items => areKeys items
  | tagged _ value => isKey value
  | record _ fields => haveKeys fields
  | declared _ fields => haveKeys fields
  | member enumeration _ _ => !(enumeration.lacks "__hash__" || enumeration.lacks "__eq__")
  | _ => true

/-- Whether all items of a sequence may be keys. -/
def areKeys : List Value → Bool
  | [] => true
  | v :: rest => isKey v && areKeys rest

/-- Whether all fields of a record may be keys. -/
def haveKeys : List (String × Value) → Bool
  | [] => true
  | (_, v) :: rest => isKey v && haveKeys rest

end

/-- What a list of entries has under a key. -/
def lookup? {α : Type} (key : Value) (entries : List (Value × α)) : Option α :=
  (entries.find? fun (k, _) => same k key).map Prod.snd

/-- The entry of a mapping under a text key. -/
def entry? (v : Value) (name : String) : Option Value :=
  match v with
  | map entries => lookup? (text name) entries
  | _ => none

/-- Adds an item to a set, given newest first, unless the set has it. -/
def addMember (members : List Value) (v : Value) : List Value :=
  if members.any (same v) then members else v :: members

/-- The items without repetitions; of equal items the first one stays. -/
def distinct (items : List Value) : List Value :=
  (items.foldl addMember []).reverse

/-- Sets a key: a key that is there keeps its place and gets the new value, a new one comes last.
Entries are given newest first. -/
def setEntry {α : Type} (entries : List (Value × α)) (key : Value) (a : α) : List (Value × α) :=
  if entries.any fun (k, _) => same k key then
    entries.map fun (k, b) => if same k key then (k, a) else (k, b)
  else (key, a) :: entries

/-- The entries with unique keys: of equal keys the first one stays, with the last value. -/
def unique {α : Type} (entries : List (Value × α)) : List (Value × α) :=
  (entries.foldl (fun acc (k, a) => setEntry acc k a) []).reverse

end StrictContract.Value
