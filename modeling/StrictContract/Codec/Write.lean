import StrictContract.Codec
import StrictContract.Failure
import StrictContract.Value.Feature
import StrictContract.Value.Member

/-! # Writing — the canonical encoding of a value

`Codec.write` gives the canonical bytes of a value, or the reason why the value is not of the codec.
Errors name the place of the offending part: fields by name, items by position, entries of sets and
maps by their label. -/

namespace StrictContract

namespace Value

/-- What a loop over the value visits; a value without items cannot be looped over. -/
def iterate (v : Value) : Except Failure (List Value) :=
  match v.items? with
  | some items => .ok items
  | none => misuse .wrongType

/-- The two parts of a pair. -/
def unpair (v : Value) : Except Failure (Value × Value) := do
  match ← v.iterate with
  | [a, b] => return (a, b)
  | _ :: _ :: _ :: _ => reject (.tooManyParts 2)
  | few => reject (.tooFewParts 2 few.length)

/-- The value of a field: an entry of a mapping, a feature of anything else. -/
def field (v : Value) (name : String) : Except Failure Value :=
  match v with
  | map _ =>
    match v.entry? name with
    | some x => .ok x
    | none => fail (.missingField name)
  | _ =>
    match v.feature? name with
    | some x => .ok x
    | none => fail (.noField v.typeName name)

/-- The integer that a value is; booleans are none. A member has to be comparable. -/
def integer (v : Value) : Except Failure Int :=
  match v with
  | int n => .ok n
  | member _ _ tag =>
    if v.lacks "__lt__" || v.lacks "__gt__" then misuse .wrongType else .ok tag
  | _ => fail (.wrongType "integer" v.typeName)

/-- The bytes of an integer that a value is, if there are any. -/
def integerOctets (v : Value) (n : Int) (octets : Option Octets) (codec : String) :
    Except Failure Octets :=
  match octets with
  | some octets => if v.lacks "to_bytes" then misuse .wrongType else .ok octets
  | none =>
    if v.lacks "__format__" || v.lacks "__str__" then misuse .wrongType
    else fail (.doesNotFit n codec)

/-- The bytes that a value is. -/
def octets (v : Value) : Except Failure Octets :=
  match v.octets? with
  | some octets => .ok octets
  | none => fail (.wrongType "bytes" v.typeName)

/-- The entries of a value that is to be written as a map: those of a mapping, or, in the form of
pairs, the items of a sequence. -/
def mapItems (form : MapForm) (v : Value) : Except Failure (List Value) :=
  match v, form with
  | map entries, _ => .ok (entries.map fun (k, x) => tuple [k, x])
  | list items, .pairs => .ok items
  | tuple items, .pairs => .ok items
  | tagged variant value, .pairs => .ok [text variant, value]
  | _, _ => fail (.wrongType "mapping" v.typeName)

end Value

/-- The segment of a path for a position. -/
def indexSegment (i : Nat) : String := s!"[{i}]"

/-- The segment of a path for an entry of a set or a map. -/
def entrySegment (label : String) : String := "[" ++ label ++ "]"

/-- Runs a computation inside the entry of a set or a map. -/
def insideEntry {α : Type} (key : Value) (x : Except Failure α) : Except Failure α :=
  match x with
  | .error (.strict e) => do inside (entrySegment (← key.labelled)) (.error (.strict e))
  | x => x

namespace Bounds

/-- Refuses a number of entries outside the bounds. -/
def checkEntries (b : Bounds) (n : Nat) : Except Failure Unit :=
  if b.admits n then .ok () else fail (.cardinality n b.min b.max)

/-- Refuses a number of bytes outside the bounds. -/
def checkOctets (b : Bounds) (n : Nat) : Except Failure Unit :=
  if b.admits n then .ok () else fail (.byteLength n b.min b.max)

end Bounds

/-! ## Canonical order -/

/-- The first two neighbours with the same encoding. -/
def repeated? {α : Type} : List (Octets × α) → Option Octets
  | (a, _) :: (b, x) :: rest => if a = b then some a else repeated? ((b, x) :: rest)
  | _ => none

/-- Encoded entries in ascending order; no encoding may occur twice. -/
def ascending {α : Type} (entries : List (Octets × α)) : Except Failure (List (Octets × α)) :=
  let sorted := entries.mergeSort fun a b => a.1.le b.1
  match repeated? sorted with
  | none => .ok sorted
  | some octets => fail (.duplicateEntry (Octets.toHex (octets.take 8)))

/-! ## Strings -/

/-- Refuses a string with a length outside the bounds; these count all characters but the first
`head`. -/
def checkTextLength (head : Nat) (b : Bounds) (n : Nat) : Except Failure Unit :=
  if b.min + head ≤ n ∧ n ≤ b.max + head then .ok ()
  else fail (.stringLength n (b.min + head) (b.max + head))

/-- Refuses characters outside their charset; the first character stands at position `i`. -/
def checkChars (rest : Charset) : Charset → Nat → List Char → Except Failure Unit
  | _, _, [] => .ok ()
  | charset, i, c :: cs =>
    if charset.contains c then checkChars rest rest (i + 1) cs
    else fail (.charNotAllowed (Text.quoted c.toString) i charset.name)

/-- The bytes of a string of ASCII characters. -/
def asciiOctets (cs : List Char) : Octets := cs.map fun c => UInt8.ofNat c.toNat

/-- The canonical bytes of a string. -/
def writeText (first rest : Charset) (b : Bounds) (cs : List Char) : Except Failure Octets := do
  let head := Codec.headLength first rest
  checkTextLength head b cs.length
  checkChars rest first 0 cs
  let octets := asciiOctets cs
  return octets.take head ++ b.lengthPrefix (octets.length - head) ++ octets.drop head

/-- Refuses a text with a surrogate: no charset has one. -/
def refuseText (first rest : Charset) (b : Bounds) (t : BrokenText) : Except Failure Octets := do
  checkTextLength (Codec.headLength first rest) b t.codePoints.length
  checkChars rest first 0 t.front
  let charset := if t.front.isEmpty then first else rest
  fail (.charNotAllowed (BrokenText.mk [] t.first []).quoted t.front.length charset.name)

/-! ## Values -/

namespace Codec

/-- Whether a value says on its own that it is of the codec. -/
def accepts (c : Codec) (v : Value) : Bool :=
  match c, v with
  | id kind, .id kind' _ => kind == .plain || kind == kind'
  | struct _ _ (.record type) _, .record type' _ => type == type'
  | struct _ _ (.declared type) _, .declared type' _ => type == type'
  | struct _ _ .typeSystem _, .record type' _ => type' == "TypeSystem"
  | enumeration decl, .member decl' _ _ => decl' == decl
  | _, _ => false

/-- The canonical bytes of an unsigned integer. -/
def writeUInt (size : Nat) (v : Value) : Except Failure Octets := do
  let n ← v.integer
  let octets := if 0 ≤ n ∧ n < Octets.span size then some (Octets.ofNat size n.toNat) else none
  v.integerOctets n octets (uint size).name

/-- The canonical bytes of a signed integer. -/
def writeSInt (size : Nat) (v : Value) : Except Failure Octets := do
  let n ← v.integer
  let fits : Bool := -(Octets.span size : Int) ≤ 2 * n ∧ 2 * n < Octets.span size
  v.integerOctets n (if fits then some (Octets.ofInt size n) else none) (sint size).name

/-- The canonical bytes of a byte string of one length. -/
def writeArray (size : Nat) (v : Value) : Except Failure Octets := do
  let octets ← v.octets
  if octets.length = size then return octets
  else fail (.byteCount size octets.length)

mutual

/-- The canonical bytes of a value. -/
def write : Codec → Value → Except Failure Octets
  | unit, v =>
    match v with
    | .null => .ok []
    | _ => do fail (.notUnit (← v.shown))
  | bool, v =>
    match v with
    | .bool b => .ok [if b then 1 else 0]
    | _ => fail (.wrongType "bool" v.typeName)
  | unicode, v =>
    match v.codePoints? with
    | some [p] => .ok (Octets.ofNat 4 p.toNat)
    | _ => do fail (.notCharacter (← v.shown))
  | uint size, v => writeUInt size v
  | sint size, v => writeSInt size v
  | byteArray size, v => writeArray size v
  | id _, v => writeArray 32 v
  | bytes b _, v => do
    let octets ← v.octets
    b.checkOctets octets.length
    return b.lengthPrefix octets.length ++ octets
  | ascii first rest b _, v =>
    match v with
    | .text s => writeText first rest b s.toList
    | .broken t => refuseText first rest b t
    | _ => fail (.wrongType "str" v.typeName)
  | list item b _, v => do
    let items ← v.iterate
    b.checkEntries items.length
    let parts ← items.zipIdx.mapM fun (x, i) => inside (indexSegment i) (write item x)
    return b.lengthPrefix items.length ++ parts.flatten
  | set item b _ _, v => do
    let items ← v.iterate
    let entries ← items.mapM fun x => do
      return (← insideEntry x (write item x), ())
    let sorted ← ascending entries
    b.checkEntries sorted.length
    return b.lengthPrefix sorted.length ++ (sorted.map Prod.fst).flatten
  | map key value b form _, v => do
    let items ← v.mapItems form
    let entries ← items.mapM fun e => do
      let (k, x) ← e.unpair
      return (← insideEntry k (write key k), k, x)
    let sorted ← ascending entries
    b.checkEntries sorted.length
    let parts ← sorted.mapM fun (raw, k, x) => do
      return raw ++ (← insideEntry k (write value x))
    return b.lengthPrefix sorted.length ++ parts.flatten
  | array item count, v => do
    let items ← v.iterate
    if items.length ≠ count then fail (.itemCount count items.length)
    let parts ← items.zipIdx.mapM fun (x, i) => inside (indexSegment i) (write item x)
    return parts.flatten
  | option inner, v =>
    match v with
    | .null => .ok [0]
    | _ => do return 1 :: (← write inner v)
  | tuple items, v => do
    let values ← v.iterate
    if values.length ≠ items.length then fail (.tupleArity items.length values.length)
    writeItems items 0 values
  | struct name fields form wrapped, v =>
    if wrapped && !(struct name fields form wrapped).accepts v then writeBare fields v
    else writeFields fields v
  | union name variants, v =>
    match v with
    | .tagged variant payload => writeNamed name variant variants payload
    | _ => writeAccepted name variants v
  | enumeration decl, v => do
    match ← decl.lookUp v with
    | some (_, tag) => if decl.lacks "__int__" then misuse .wrongType else return [UInt8.ofNat tag]
    | none => fail (.notMember (← v.shown) decl.name)

/-- The bytes of values, each under the codec of its position. -/
def writeItems : List Codec → Nat → List Value → Except Failure Octets
  | c :: cs, i, v :: vs => do
    let part ← inside (indexSegment i) (write c v)
    return part ++ (← writeItems cs (i + 1) vs)
  | _, _, _ => .ok []

/-- The bytes of the fields of a value. -/
def writeFields : List (String × Codec) → Value → Except Failure Octets
  | [], _ => .ok []
  | (name, c) :: rest, v => do
    let part ← inside name (do write c (← v.field name))
    return part ++ (← writeFields rest v)

/-- The bytes of a value that stands for the only field of a struct. -/
def writeBare : List (String × Codec) → Value → Except Failure Octets
  | [], _ => .ok []
  | (name, c) :: _, v => inside name (write c v)

/-- The bytes of the payload of a variant given by name. -/
def writeNamed (union variant : String) :
    List (Nat × String × Codec) → Value → Except Failure Octets
  | [], _ => fail (.unknownVariant union variant)
  | (tag, name, c) :: rest, payload =>
    if name = variant then do return UInt8.ofNat tag :: (← inside name (write c payload))
    else writeNamed union variant rest payload

/-- The bytes of a value under the first variant that it says to be of. -/
def writeAccepted (union : String) :
    List (Nat × String × Codec) → Value → Except Failure Octets
  | [], v => fail (.noVariant v.typeName union)
  | (tag, name, c) :: rest, v =>
    if c.accepts v then do return UInt8.ofNat tag :: (← inside name (write c v))
    else writeAccepted union rest v

end

end Codec

end StrictContract
