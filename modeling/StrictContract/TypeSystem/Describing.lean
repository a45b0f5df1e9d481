import StrictContract.Codec.Declaration
import StrictContract.TypeSystem

/-! # Describing — the codec of a stored definition

A stored definition describes a codec with plain values: enumerations become unions of unit
variants, structs become mappings, sets and maps keep their canonical order. Lists of the characters
of a charset are strings, lists and arrays of bytes are byte strings. -/

namespace StrictContract.TypeSystem

/-- Whether an id is that of the type of bytes. -/
def isByte (ts : TypeSystem) (sid : SemId) : Except Failure Bool := do
  return (← ts.find sid) == .primitive 1

/-- Short form of an id, for the name of a codec. -/
def shortId (sid : SemId) : String := Octets.toHex (sid.octets.take 4)

/-- The string codec that a struct of a first character and the remaining ones stands for. -/
def splitText? (ts : TypeSystem) (fields : List (String × SemId)) :
    Except Failure (Option Codec) := do
  match fields with
  | [("first", firstId), ("rest", tailId)] =>
    let first := Charset.ofId? firstId
    let tail ← ts.find tailId
    match first, tail with
    | some first, .list item min max =>
      match Charset.ofId? item with
      | some rest =>
        if Codec.isSplit first rest then
          return some (.ascii first rest (← Bounds.of? min max) none)
        else return none
      | none => return none
    | _, _ => return none
  | _ => return none

/-- The codec of a stored definition, if `part` gives those of the definitions it refers to; this may
be a computation of any sort that can fail. -/
def describeBy {m : Type → Type} [Monad m] [MonadLiftT (Except Failure) m] (ts : TypeSystem)
    (part : SemId → m Codec) (sid : SemId) : m Codec := do
  match ← ts.find sid with
  | .primitive width => return if width = 0 then .unit else .uint width
  | .unicode => return .unicode
  | .enumeration members =>
    let variants := members.map fun (name, tag) => (tag, name, Codec.unit)
    return .union ("Enum#" ++ shortId sid) (variants.mergeSort fun a b => decide (a.1 ≤ b.1))
  | .union variants =>
    return .union ("Union#" ++ shortId sid) <| ← variants.mapM fun (tag, name, ty) => do
      return (tag, name, ← part ty)
  | .tuple items => return .tuple (← items.mapM fun ty => part ty)
  | .struct fields =>
    match ← ts.splitText? fields with
    | some c => return c
    | none =>
      let codecs ← fields.mapM fun (name, ty) => do return (name, ← part ty)
      return .struct ("Struct#" ++ shortId sid) codecs .mapping false
  | .array item length =>
    if ← ts.isByte item then return .byteArray length
    else return .array (← part item) length
  | .list item min max =>
    match Charset.ofId? item with
    | some cs => return .ascii cs cs (← Bounds.of? min max) none
    | none =>
      if ← ts.isByte item then return .bytes (← Bounds.of? min max) none
      else return .list (← part item) (← Bounds.of? min max) none
  | .set item min max =>
    return .set (← part item) (← Bounds.of? min max) .sequence none
  | .map key value min max =>
    let keyCodec ← part key
    let valueCodec ← part value
    return .map keyCodec valueCodec (← Bounds.of? min max) .pairs none

/-- The codec of a stored definition; `fuel` bounds the depth of references. -/
def describe (ts : TypeSystem) : Nat → SemId → Except Failure Codec
  | 0, sid => fail (.typeAbsent sid.text)
  | fuel + 1, sid => ts.describeBy (describe ts fuel) sid

/-- The codec of the definition with an id. References lead to earlier definitions, so no path is
longer than the number of definitions. -/
def codecOf (ts : TypeSystem) (sid : SemId) : Except Failure Codec :=
  ts.describe (ts.size + 1) sid

end StrictContract.TypeSystem
