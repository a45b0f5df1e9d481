import StrictContract.Codec.Write
import StrictContract.Digest.Commitment
import StrictContract.Value.Order

/-! # Type definitions — what a semantic type id stands for

A **definition** describes a type by its shape and by the ids of the types it refers to. Its id is
the commitment to its own canonical encoding, so equal definitions have equal ids and every change
to a name, an order, a bound or a reference gives another id. A **draft** is a definition as it is
offered, with arbitrary values for names and numbers; a **type definition** is one whose encoding
exists. -/

namespace StrictContract

/-- A **definition**, over a type of names and a type of numbers. -/
inductive Definition (Name Num : Type) where
  /-- A number of bytes without further structure. -/
  | primitive (width : Num)
  /-- A Unicode scalar value. -/
  | unicode
  /-- Named members with their tags. -/
  | enumeration (members : List (Name × Num))
  /-- Named variants by tag, each with a payload type. -/
  | union (variants : List (Num × Name × SemId))
  /-- A type for each position. -/
  | tuple (items : List SemId)
  /-- Named fields with their types. -/
  | struct (fields : List (Name × SemId))
  /-- A number of items. -/
  | array (item : SemId) (length : Num)
  /-- A bounded sequence. -/
  | list (item : SemId) (min max : Num)
  /-- A bounded set. -/
  | set (item : SemId) (min max : Num)
  /-- A bounded map. -/
  | map (key value : SemId) (min max : Num)
deriving DecidableEq

namespace Definition

variable {Name Num : Type}

/-- The ids that a definition refers to, in the order of its parts. -/
def references : Definition Name Num → List SemId
  | primitive _ => []
  | unicode => []
  | enumeration _ => []
  | union variants => variants.map fun (_, _, ty) => ty
  | tuple items => items
  | struct fields => fields.map Prod.snd
  | array item _ => [item]
  | list item _ _ => [item]
  | set item _ _ => [item]
  | map key value _ _ => [key, value]

/-- The name of the kind of a definition. -/
def kindName : Definition Name Num → String
  | primitive _ => "TyPrimitive"
  | unicode => "TyUnicode"
  | enumeration _ => "TyEnum"
  | union _ => "TyUnion"
  | tuple _ => "TyTuple"
  | struct _ => "TyStruct"
  | array _ _ => "TyArray"
  | list _ _ _ => "TyList"
  | set _ _ _ => "TySet"
  | map _ _ _ _ => "TyMap"

/-- The same definition with other names and numbers. -/
def mapParts {Name' Num' : Type} (f : Name → Name') (g : Num → Num') :
    Definition Name Num → Definition Name' Num'
  | primitive width => primitive (g width)
  | unicode => unicode
  | enumeration members => enumeration (members.map fun (name, tag) => (f name, g tag))
  | union variants => union (variants.map fun (tag, name, ty) => (g tag, f name, ty))
  | tuple items => tuple items
  | struct fields => struct (fields.map fun (name, ty) => (f name, ty))
  | array item length => array item (g length)
  | list item min max => list item (g min) (g max)
  | set item min max => set item (g min) (g max)
  | map key value min max => map key value (g min) (g max)

@[simp] theorem references_mapParts {Name' Num' : Type} (f : Name → Name') (g : Num → Num')
    (d : Definition Name Num) : (d.mapParts f g).references = d.references := by
  cases d <;> simp [mapParts, references, Function.comp_def]

end Definition

/-- A definition as it is offered. -/
abbrev Draft : Type := Definition Value Value

/-- A **type definition**. The variants of a union are in ascending order of their tags. -/
abbrev TypeDef : Type := Definition String Nat

/-! ## The codec of definitions -/

namespace TypeDef

/-- Names inside definitions: a letter or underscore first, up to a hundred characters. -/
def identCodec : Codec := .ascii .alphaLodash .alphaNumLodash .nameLength (some "Ident")

/-- Bounds inside definitions. -/
def sizingCodec : Codec :=
  .struct "Sizing" [("min", .uint 4), ("max", .uint 4)] (.record "Sizing") false

/-- Up to 255 parts of a definition, at least one. -/
def partBounds : Bounds := .tinyNonempty

/-- The codec of definitions. -/
def codec : Codec :=
  .union "TypeDefinition" [
    (0, "primitive", .struct "Primitive" [("width", .uint 1)] (.record "TyPrimitive") false),
    (1, "unicode", .struct "Unicode" [] (.record "TyUnicode") false),
    (2, "enum", .struct "Enum" [
      ("variants", .list
        (.struct "EnumVariant" [("name", identCodec), ("tag", .uint 1)]
          (.record "EnumVariant") false)
        partBounds none)] (.record "TyEnum") false),
    (3, "union", .struct "Union" [
      ("variants", .map (.uint 1)
        (.struct "UnionVariant" [("name", identCodec), ("ty", .id .sem)]
          (.record "UnionVariant") false)
        partBounds .mapping none)] (.record "TyUnion") false),
    (4, "tuple", .struct "Tuple" [("fields", .list (.id .sem) partBounds none)]
      (.record "TyTuple") false),
    (5, "struct", .struct "Struct" [
      ("fields", .list
        (.struct "FieldDef" [("name", identCodec), ("ty", .id .sem)] (.record "FieldDef") false)
        partBounds none)] (.record "TyStruct") false),
    (6, "array", .struct "Array" [("ty", .id .sem), ("len", .uint 2)] (.record "TyArray") false),
    (7, "list", .struct "List" [("ty", .id .sem), ("sizing", sizingCodec)]
      (.record "TyList") false),
    (8, "set", .struct "Set" [("ty", .id .sem), ("sizing", sizingCodec)] (.record "TySet") false),
    (9, "map", .struct "Map" [("key", .id .sem), ("value", .id .sem), ("sizing", sizingCodec)]
      (.record "TyMap") false)]

end TypeDef

/-! ## Drafts -/

namespace Draft

/-- The record of a type id. -/
def idValue (sid : SemId) : Value := .id .sem sid

/-- The record of a pair of bounds. -/
def sizingValue (min max : Value) : Value := .record "Sizing" [("min", min), ("max", max)]

/-- The record of a draft, as the codec of definitions writes it. -/
def toValue (d : Draft) : Value :=
  .record d.kindName <|
    match d with
    | .primitive width => [("width", width)]
    | .unicode => []
    | .enumeration members =>
      [("variants", .tuple (members.map fun (name, tag) =>
        .record "EnumVariant" [("name", name), ("tag", tag)]))]
    | .union variants =>
      [("variants", .map (variants.map fun (tag, name, ty) =>
        (tag, .record "UnionVariant" [("name", name), ("ty", idValue ty)])))]
    | .tuple items => [("fields", .tuple (items.map idValue))]
    | .struct fields =>
      [("fields", .tuple (fields.map fun (name, ty) =>
        .record "FieldDef" [("name", name), ("ty", idValue ty)]))]
    | .array item length => [("ty", idValue item), ("len", length)]
    | .list item min max => [("ty", idValue item), ("sizing", sizingValue min max)]
    | .set item min max => [("ty", idValue item), ("sizing", sizingValue min max)]
    | .map key value min max =>
      [("key", idValue key), ("value", idValue value), ("sizing", sizingValue min max)]

/-- The bounds that a record describes. -/
def sizingOf? (v : Value) : Option (Value × Value) :=
  return (← v.part? "min", ← v.part? "max")

/-- The draft that a record describes. -/
def ofValue? (v : Value) : Option Draft := do
  match v with
  | .record "TyPrimitive" _ => return .primitive (← v.part? "width")
  | .record "TyUnicode" _ => return .unicode
  | .record "TyEnum" _ =>
    let members ← (← (← v.part? "variants").sequence?).mapM fun m =>
      return (← m.part? "name", ← m.part? "tag")
    return .enumeration members
  | .record "TyUnion" _ =>
    match ← v.part? "variants" with
    | .map entries =>
      let variants ← entries.mapM fun (tag, m) =>
        return (tag, ← m.part? "name", ← (← m.part? "ty").id? .sem)
      return .union variants
    | _ => none
  | .record "TyTuple" _ =>
    return .tuple (← (← (← v.part? "fields").sequence?).mapM (Value.id? .sem))
  | .record "TyStruct" _ =>
    let fields ← (← (← v.part? "fields").sequence?).mapM fun m =>
      return (← m.part? "name", ← (← m.part? "ty").id? .sem)
    return .struct fields
  | .record "TyArray" _ => return .array (← (← v.part? "ty").id? .sem) (← v.part? "len")
  | .record "TyList" _ =>
    let (min, max) ← sizingOf? (← v.part? "sizing")
    return .list (← (← v.part? "ty").id? .sem) min max
  | .record "TySet" _ =>
    let (min, max) ← sizingOf? (← v.part? "sizing")
    return .set (← (← v.part? "ty").id? .sem) min max
  | .record "TyMap" _ =>
    let (min, max) ← sizingOf? (← v.part? "sizing")
    return .map (← (← v.part? "key").id? .sem) (← (← v.part? "value").id? .sem) min max
  | _ => none

/-- The canonical bytes of a draft. -/
def encode (d : Draft) : Except Failure Octets := TypeDef.codec.write d.toValue

/-- The id of a draft: the commitment to its canonical bytes. -/
def semId (d : Draft) : Except Failure SemId := do
  return Id.ofContent .sem (← d.encode)

/-! ### Rules beyond the codec -/

/-- Refuses a repetition among names or tags. -/
def checkUnique (what : String) (seen : List Value) : List Value → Except Failure Unit
  | [] => .ok ()
  | v :: rest =>
    if !v.isKey then misuse .wrongType
    else if seen.any v.same then fail (.duplicateName what v.literal)
    else checkUnique what (v :: seen) rest

/-- Refuses inverted bounds. -/
def checkSizing (min max : Value) : Except Failure Unit := do
  if ← max.precedes min then
    .error (.strict (.of "sizing" (.sizingInverted min.display max.display)))

/-- The widths that primitive types may have. -/
def primitiveWidths : List Int := [0, 1, 2, 3, 4, 8, 16, 32]

/-- Refuses drafts that break a rule the codec cannot express. -/
def validate (d : Draft) : Except Failure Unit := do
  match d with
  | .primitive width =>
    if !(width.number?.any primitiveWidths.contains) then
      .error (.strict (.of "width" (.primitiveWidth width.display)))
  | .enumeration members =>
    checkUnique "enum variant name" [] (members.map Prod.fst)
    checkUnique "enum tag" [] (members.map Prod.snd)
  | .union variants => checkUnique "union variant name" [] (variants.map fun (_, name, _) => name)
  | .struct fields => checkUnique "field name" [] (fields.map Prod.fst)
  | .array _ length =>
    if ← length.precedes (.int 1) then .error (.strict (.of "len" .emptyArray))
  | .list _ min max => checkSizing min max
  | .set _ min max => checkSizing min max
  | .map _ _ min max => checkSizing min max
  | .unicode => return
  | .tuple _ => return

/-- The name that a value is. -/
def nameOf? : Value → Option String
  | .text s => some s
  | _ => none

/-- The natural number that a value stands for. -/
def naturalOf? (v : Value) : Option Nat :=
  v.number?.bind fun n => if 0 ≤ n then some n.toNat else none

/-- The type definition that a draft is, if its names are texts and its numbers natural. -/
def definition? (d : Draft) : Option TypeDef := do
  match d with
  | .primitive width => return .primitive (← naturalOf? width)
  | .unicode => return .unicode
  | .enumeration members =>
    return .enumeration (← members.mapM fun (name, tag) =>
      return (← nameOf? name, ← naturalOf? tag))
  | .union variants =>
    let known ← variants.mapM fun (tag, name, ty) => return (← naturalOf? tag, ← nameOf? name, ty)
    return .union (known.mergeSort fun a b => decide (a.1 ≤ b.1))
  | .tuple items => return .tuple items
  | .struct fields => return .struct (← fields.mapM fun (name, ty) => return (← nameOf? name, ty))
  | .array item length => return .array item (← naturalOf? length)
  | .list item min max => return .list item (← naturalOf? min) (← naturalOf? max)
  | .set item min max => return .set item (← naturalOf? min) (← naturalOf? max)
  | .map key value min max => return .map key value (← naturalOf? min) (← naturalOf? max)

end Draft

/-! ## Type definitions -/

namespace TypeDef

/-- The draft of a type definition. -/
def toDraft (d : TypeDef) : Draft := d.mapParts .text .ofNat

@[simp] theorem references_toDraft (d : TypeDef) : d.toDraft.references = d.references :=
  Definition.references_mapParts _ _ _

/-- The record of a type definition. -/
def toValue (d : TypeDef) : Value := Draft.toValue d.toDraft

/-- The type of no bytes, of which there is one value. -/
def unit : TypeDef := .primitive 0

/-- The type of booleans. -/
def bool : TypeDef := .enumeration [("false", 0), ("true", 1)]

end TypeDef

/-! ## Charsets -/

namespace Charset

/-- The name of a character inside definitions: letters by themselves, others by their code. -/
def charName (c : Char) : String :=
  if c.isAlpha then c.toString else "_" ++ Text.hexPadded 2 c.toNat

/-- The definition of the characters of a charset, tagged with their codes. -/
def definition (cs : Charset) : TypeDef :=
  .enumeration (cs.chars.map fun c => (charName c, c.toNat))

/-- The ids of the charsets. -/
def ids : List (SemId × Charset) :=
  all.filterMap fun cs =>
    match Draft.semId cs.definition.toDraft with
    | .ok sid => some (sid, cs)
    | .error _ => none

/-- The charset with a given id. -/
def ofId? (sid : SemId) : Option Charset := ids.lookup sid

end Charset

end StrictContract
