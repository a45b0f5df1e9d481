import StrictContract.Codec.Cursor
import StrictContract.TypeSystem

/-! # Reading — the value behind a canonical encoding

`Codec.read` takes one encoded value from the front of a byte string, `Codec.decode` reads a byte
string that is exactly one encoded value. Only canonical encodings are read: entries of sets and
maps must be strictly ascending, flags zero or one, discriminants declared, lengths within bounds.
-/

namespace StrictContract

/-- Refuses an entry that does not come after the one before it. -/
def checkAscending (before : Option Octets) (octets : Octets) (label : String) :
    Except Failure Unit :=
  match before with
  | none => .ok ()
  | some earlier =>
    if octets = earlier then fail (.duplicateEntry label)
    else if octets < earlier then fail (.outOfOrder label)
    else .ok ()

/-- Runs a reader inside the entry of a set or a map. -/
def Reader.withinEntry {α : Type} (key : Value) (r : Reader α) : Reader α := fun c =>
  insideEntry key (r c)

/-- The value of a set that was read. -/
def SetForm.value (form : SetForm) (items : List Value) : Except Failure Value :=
  match form with
  | .sequence => .ok (.tuple items)
  | .members => if Value.areKeys items then .ok (.set (Value.distinct items)) else misuse .wrongType

/-- The value of a map that was read. -/
def MapForm.value (form : MapForm) (entries : List (Value × Value)) : Except Failure Value :=
  match form with
  | .pairs => .ok (.tuple (entries.map fun (k, v) => .tuple [k, v]))
  | .mapping =>
    if Value.areKeys (entries.map Prod.fst) then .ok (.map (Value.unique entries))
    else misuse .wrongType

/-- The value of a struct that was read. -/
def StructForm.value (form : StructForm) (wrapped : Bool) (fields : List (String × Value)) :
    Except Failure Value :=
  match form, fields with
  | .record type, fields => .ok (.record type fields)
  | .declared type, fields => type.record fields
  | .typeSystem, [(_, v)] => do return (← TypeSystem.ofValue v).toValue
  | .typeSystem, _ => misuse .wrongType
  | .mapping, fields =>
    match wrapped, fields with
    | true, (_, v) :: _ => .ok v
    | _, fields => .ok (.ofFields fields)

/-- Where the first byte outside ASCII stands. -/
def nonAsciiPosition? (octets : Octets) : Option Nat :=
  octets.findIdx? fun b => decide (128 ≤ b.toNat)

/-- Takes a string; the bounds count all characters but the first `head`. -/
def Reader.text (first rest : Charset) (b : Bounds) : Reader Value := do
  let head := Codec.headLength first rest
  let front ← take head
  let n ← nat b.width
  checkTextLength head b (n + head)
  let octets := front ++ (← take n)
  match nonAsciiPosition? octets with
  | some i => refuse (.nonAscii i)
  | none =>
    let cs := octets.map fun x => Char.ofNat x.toNat
    checkTextLength head b cs.length
    checkChars rest first 0 cs
    return .text (String.ofList cs)

namespace Codec

/-- Whether a number is a Unicode scalar value. -/
def isScalar (n : Nat) : Bool := n < 0xd800 || (0xdfff < n && n ≤ 0x10ffff)

mutual

/-- Takes a value of a codec. -/
def read : Codec → Reader Value
  | unit => return .null
  | bool => do
    let b ← Reader.byte
    if b > 1 then Reader.refuse (.invalidBool b) else return .bool (b == 1)
  | unicode => do
    let n ← Reader.nat 4
    if isScalar n then return .text (Char.ofNat n).toString else Reader.refuse (.invalidScalar n)
  | uint size => do return .int (← Reader.nat size)
  | sint size => do return .int (Octets.toInt (← Reader.take size))
  | byteArray size => do return .bytes (← Reader.take size)
  | id kind => do
    let octets ← Reader.take 32
    if h : octets.length = 32 then return .id kind ⟨octets, h⟩
    else Reader.refuse (.identifierLength kind.name octets.length)
  | bytes b _ => do
    let n ← Reader.nat b.width
    b.checkOctets n
    return .bytes (← Reader.take n)
  | ascii first rest b _ => Reader.text first rest b
  | list item b _ => do
    let n ← Reader.nat b.width
    b.checkEntries n
    return .tuple (← Reader.repeated (fun i => Reader.within (indexSegment i) (read item)) n 0 [])
  | set item b form _ => do
    let n ← Reader.nat b.width
    b.checkEntries n
    let items ← Reader.chained (fun i before => Reader.within (indexSegment i) (do
      let (octets, v) ← Reader.withOctets (read item)
      checkAscending before octets s!"#{i}"
      return (octets, v))) n 0 none []
    form.value items
  | map key value b form _ => do
    let n ← Reader.nat b.width
    b.checkEntries n
    let entries ← Reader.chained (fun i before => do
      let (octets, k) ← Reader.within (indexSegment i) (do
        let (octets, k) ← Reader.withOctets (read key)
        checkAscending before octets (← k.labelled)
        return (octets, k))
      let v ← Reader.withinEntry k (read value)
      return (octets, (k, v))) n 0 none []
    form.value entries
  | array item count => do
    return .tuple
      (← Reader.repeated (fun i => Reader.within (indexSegment i) (read item)) count 0 [])
  | option inner => do
    let b ← Reader.byte
    if b = 0 then return .null
    else if b = 1 then read inner
    else Reader.refuse (.invalidPresence b)
  | tuple items => do return .tuple (← readItems items 0)
  | struct _ fields form wrapped => do
    let values ← readFields fields
    form.value wrapped values
  | union name variants => do
    let tag ← Reader.byte
    readVariant name tag variants
  | enumeration decl => do
    let tag ← Reader.byte
    match ← decl.lookUp (.ofNat tag) with
    | some (member, _) => return .member decl member tag
    | none => Reader.refuse (.unknownTag tag "enum" decl.name)

/-- Takes a value for each position. -/
def readItems : List Codec → Nat → Reader (List Value)
  | [], _ => return []
  | c :: rest, i => do
    let v ← Reader.within (indexSegment i) (read c)
    return v :: (← readItems rest (i + 1))

/-- Takes a value for each field. -/
def readFields : List (String × Codec) → Reader (List (String × Value))
  | [] => return []
  | (name, c) :: rest => do
    let v ← Reader.within name (read c)
    return (name, v) :: (← readFields rest)

/-- Takes the payload of the variant with a tag. -/
def readVariant (union : String) (tag : Nat) : List (Nat × String × Codec) → Reader Value
  | [] => Reader.refuse (.unknownTag tag "union" union)
  | (t, name, c) :: rest =>
    if t = tag then do
      let payload ← Reader.within name (read c)
      return if c.discriminated then payload else .tagged name payload
    else readVariant union tag rest

end

/-- The value of which a byte string is the encoding. -/
def decode (c : Codec) (octets : Octets) : Except Failure Value := c.read.exactly octets

end Codec

end StrictContract
