import StrictContract.Codec
import StrictContract.Failure
import StrictContract.Text.Composed
import StrictContract.Text.FieldName
import StrictContract.Value.Record

/-! # Declarations — building codecs from unchecked parts

Every constructor of a codec has a checked counterpart here that takes arbitrary integers and names
and refuses what describes no type: inverted bounds, ambiguous absence, repeated names, names
that are reserved, tags that are no bytes. -/

namespace StrictContract

/-- The width of the length prefix for a declared maximum. -/
def prefixWidth? (max : Int) : Except Failure Nat :=
  if max < 0 then reject .negativeMaximum
  else if max ≤ 0xffffffff then .ok (prefixWidth max.toNat)
  else reject (.maximumTooLarge max)

/-- Checked bounds. -/
def Bounds.of? (min max : Int) : Except Failure Bounds :=
  if h : 0 ≤ min ∧ min ≤ max then
    if hs : max ≤ 0xffffffff then
      .ok { min := min.toNat, max := max.toNat, ordered := by omega, small := by omega }
    else reject (.maximumTooLarge max)
  else reject (.invalidBounds min max)

/-- The items with unique keys; of items with one key the last stays, in the place of the first. -/
def lastByKey {α κ : Type} [DecidableEq κ] (key : α → κ) (items : List α) : List α :=
  (items.foldl (fun acc a =>
    if acc.any (key · = key a) then acc.map (fun b => if key b = key a then a else b)
    else a :: acc) []).reverse

/-- Names of the form `_x_`, which are reserved. -/
def isReservedName (name : String) : Bool :=
  match name.toList, name.toList.reverse with
  | '_' :: c :: _ :: _, '_' :: d :: _ => c != '_' && d != '_'
  | _, _ => false

/-- Names of the form `__x__`, which name no members. -/
def isSpecialName (name : String) : Bool :=
  match name.toList, name.toList.reverse with
  | '_' :: '_' :: c :: _ :: _, '_' :: '_' :: d :: _ => c != '_' && d != '_'
  | _, _ => false

/-- Names that begin with the name of their enumeration between underscores, and do not end in two
underscores; they name no members. -/
def isPrivateName (enumeration name : String) : Bool :=
  let mark := "_" ++ enumeration ++ "__"
  name.startsWith mark && decide (mark.length < name.length) &&
    !(name.toList.reverse.take 2 == ['_', '_'])

/-- Reserved names that may stand in a declaration although they name no members. -/
def permittedNames : List String :=
  ["_generate_next_value_", "_numeric_repr_", "_missing_", "_iter_member_",
   "_iter_member_by_value_", "_iter_member_by_def_", "_order_"]

/-- Whether a declared name of an enumeration names an attribute. -/
def isAttributeName (enumeration name : String) : Bool :=
  isPrivateName enumeration name || permittedNames.contains name || isSpecialName name

/-- Refuses a name of an enumeration that neither names a member nor an attribute, or that an
earlier member has. -/
def checkMemberName (enumeration : String) (seen : List String) (name : String) :
    Except Failure (List String) :=
  if isAttributeName enumeration name then .ok seen
  else if isReservedName name then
    if name = "_ignore_" then misuse .wrongType else reject (.reservedName name)
  else if seen.contains name then misuse .wrongType
  else .ok (name :: seen)

/-- The names that give an order of the members. -/
def orderNames : List String := ["_order_", "__order__"]

/-- Whether a declaration tries to give an order of the members. -/
def ordersMembers (entries : List (String × Int)) : Bool :=
  match entries.reverse.find? fun (name, _) => orderNames.contains name with
  | some (_, order) => order != 0
  | none => false

/-- The names that say how an enumeration is made, and cannot be attributes. -/
def makingNames : List String := ["__slots__", "__qualname__", "__classcell__"]

/-- The names of what making a member needs; where there are members, they cannot be attributes. -/
def memberMakingNames : List String :=
  ["__init__", "__new__", "__getattr__", "__getattribute__", "__setattr__"]

/-- Whether the attributes of an enumeration stand in the way of making it. -/
def obstructs (attributes members : List (String × Int)) : Bool :=
  attributes.any fun (name, _) =>
    makingNames.contains name || (!members.isEmpty && memberMakingNames.contains name)

/-- Refuses a name that no type can have. -/
def checkTypeName (name : String) : Except Failure Unit :=
  if name.contains '\x00' then reject .nullInName else .ok ()

/-- A checked enumeration. -/
def Enumeration.of? (name : String) (entries : List (String × Int)) :
    Except Failure Enumeration := do
  let _ ← (entries.map Prod.fst).foldlM (checkMemberName name) []
  let (attributes, members) := entries.partition fun (n, _) => isAttributeName name n
  if let some (n, _) := members.find? fun (n, _) => n = "mro" || n = "" then
    reject (.invalidName n)
  checkTypeName name
  if obstructs attributes members || ordersMembers entries then misuse .wrongType
  for (_, tag) in firstByKey Prod.snd members do
    if ¬ (0 ≤ tag ∧ tag ≤ 0xff) then reject (.enumTag name tag)
  return {
    name
    names := members.map fun (n, tag) => (n, tag.toNat)
    attributes := attributes.filter fun (n, _) => n != "__module__" && !orderNames.contains n }

/-- Refuses a record type that cannot have its fields. -/
def RecordType.check (type : RecordType) : Except Failure Unit := do
  if ¬ (type.fields.all Text.isFieldName ∧ type.fields.Nodup) then misuse .wrongType
  checkTypeName type.name
  for name in type.fields do
    if let some shown := RecordType.changeable.lookup name then reject (.sharedField shown name)
  if type.isDisordered then misuse .wrongType
  if type.fields.contains "__debug__" || ¬ (type.fields.map Text.composed).Nodup then
    misuse .unusableName
  if ¬ type.fields.all Text.isComposed then misuse .wrongType

namespace Codec

/-- A checked unsigned integer codec of a number of bits. -/
def uint? (bits : Int) : Except Failure Codec :=
  if [8, 16, 24, 32, 64, 128, 256].contains bits then .ok (uint (bits.toNat / 8))
  else reject (.unsignedWidth bits)

/-- A checked signed integer codec of a number of bits. -/
def sint? (bits : Int) : Except Failure Codec :=
  if [8, 16, 32, 64].contains bits then .ok (sint (bits.toNat / 8))
  else reject (.signedWidth bits)

/-- A checked codec of byte strings of one length. -/
def byteArray? (size : Int) : Except Failure Codec :=
  if size < 1 then reject .emptyByteArray else .ok (byteArray size.toNat)

/-- A checked codec of byte strings. -/
def bytes? (min max : Int) : Except Failure Codec := do
  return bytes (← Bounds.of? min max) none

/-- A checked codec of strings of which the bounds count all characters. -/
def ascii? (first rest : Charset) (min max : Int) : Except Failure Codec := do
  if isSplit first rest then
    if min < 1 then reject (.emptySplitText min)
    return ascii first rest (← Bounds.of? (min - 1) (max - 1)) none
  return ascii first rest (← Bounds.of? min max) none

/-- A checked codec of lists. -/
def list? (item : Codec) (min max : Int) : Except Failure Codec := do
  return list item (← Bounds.of? min max) none

/-- A checked codec of sets. -/
def set? (item : Codec) (min max : Int) (form : SetForm) : Except Failure Codec := do
  return set item (← Bounds.of? min max) form none

/-- A checked codec of maps. -/
def map? (key value : Codec) (min max : Int) (form : MapForm) : Except Failure Codec := do
  return map key value (← Bounds.of? min max) form none

/-- A checked codec of sequences of one length. -/
def array? (item : Codec) (count : Int) : Except Failure Codec :=
  if count < 1 then reject .emptyArray else .ok (array item count.toNat)

/-- A checked codec of optional values: null must not be among the values themselves. -/
def option? (inner : Codec) : Except Failure Codec :=
  match inner with
  | option _ => reject (.ambiguousAbsence inner.name)
  | unit => reject (.ambiguousAbsence inner.name)
  | _ => .ok (option inner)

/-- A checked struct; the fields marked so are optional. -/
def struct? (name : String) (fields : List (String × Codec × Bool)) (form : StructForm)
    (wrapped : Bool) : Except Failure Codec := do
  if let .declared type := form then type.check
  if ¬ (fields.map Prod.fst).Nodup then reject (.duplicateFields name)
  if wrapped && fields.length != 1 then reject (.wrappedArity name)
  let codecs ← fields.mapM fun (field, codec, optional) => do
    return (field, ← if optional then option? codec else .ok codec)
  return struct name codecs form wrapped

/-- A checked union. Of variants with one tag the last is meant. -/
def union? (name : String) (variants : List (Int × String × Codec)) : Except Failure Codec := do
  let distinct := lastByKey Prod.fst variants
  if distinct.isEmpty then reject (.noVariants name)
  if ¬ (distinct.map fun (_, variant, _) => variant).Nodup then reject (.duplicateVariants name)
  for (tag, _) in distinct do
    if ¬ (0 ≤ tag ∧ tag ≤ 0xff) then reject (.unionTag name tag)
  return union name <|
    (distinct.map fun (tag, variant, codec) => (tag.toNat, variant, codec)).mergeSort
      fun a b => decide (a.1 ≤ b.1)

end Codec

end StrictContract
