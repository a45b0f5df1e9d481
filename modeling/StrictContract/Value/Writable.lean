import StrictContract.Value

/-! # Writable values — what a document can hold

A document holds every value, with one exception: the keys of a mapping are **names**, and only
texts, numbers, truth values and null have one. -/

namespace StrictContract.Value

/-- The name that a key of a mapping has in a document. -/
def documentKey? : Value → Option String
  | .text s => some s
  | .broken t => some t.shown
  | .bool b => some (if b then "true" else "false")
  | .int n => some (toString n)
  | .null => some "null"
  | _ => none

mutual

/-- Whether a document can hold a value: every key of a mapping has to be a name. -/
def isWritable : Value → Bool
  | .list items => areWritable items
  | .tuple items => areWritable items
  | .tagged _ value => isWritable value
  | .map entries => entriesWritable entries
  | _ => true

/-- Whether a document can hold all items of a sequence. -/
def areWritable : List Value → Bool
  | [] => true
  | v :: rest => isWritable v && areWritable rest

/-- Whether a document can hold all entries of a mapping. -/
def entriesWritable : List (Value × Value) → Bool
  | [] => true
  | (k, v) :: rest =>
    k.documentKey?.isSome && isWritable v && entriesWritable rest

end

end StrictContract.Value
