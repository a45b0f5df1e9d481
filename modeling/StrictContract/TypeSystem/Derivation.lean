import StrictContract.TypeSystem

/-! # Derivation — the definitions that describe a codec

Every codec has a definition that describes its encodings. It is **derived** bottom-up: the parts
are inserted into a growing type system before the whole. -/

namespace StrictContract

namespace TypeSystem.Growth

/-- Inserts a type definition. -/
def define (d : TypeDef) : Growth SemId := insert d.toDraft

/-- Inserts a definition with bounds. -/
def bounded (shape : Value → Value → Draft) (b : Bounds) : Growth SemId :=
  insert (shape (.ofNat b.min) (.ofNat b.max))

/-- Inserts the definition of strings. Over one charset, strings are lists of its characters;
otherwise they are structs of the first character and the list of the others. -/
def defineText (first rest : Charset) (b : Bounds) : Growth SemId := do
  let restId ← define rest.definition
  if Codec.isSplit first rest then
    let firstId ← define first.definition
    let tailId ← bounded (.list restId) b
    insert (.struct [(.text "first", firstId), (.text "rest", tailId)])
  else bounded (.list restId) b

/-- Inserts the definition of byte strings of one length. -/
def defineOctets (size : Nat) : Growth SemId := do
  insert (.array (← define (.primitive 1)) (.ofNat size))

end TypeSystem.Growth

namespace Codec

open TypeSystem (Growth)

mutual

/-- Inserts the definition of a codec after those of its parts, and gives its id. -/
def derive : Codec → Growth SemId
  | unit => Growth.define .unit
  | bool => Growth.define .bool
  | unicode => Growth.define .unicode
  | uint size => Growth.define (.primitive size)
  | sint size => Growth.define (.primitive size)
  | byteArray size => Growth.defineOctets size
  | id _ => Growth.defineOctets 32
  | bytes b _ => do Growth.bounded (.list (← Growth.define (.primitive 1))) b
  | ascii first rest b _ => Growth.defineText first rest b
  | list item b _ => do Growth.bounded (.list (← derive item)) b
  | set item b _ _ => do Growth.bounded (.set (← derive item)) b
  | map key value b _ _ => do
    let keyId ← derive key
    let valueId ← derive value
    Growth.bounded (.map keyId valueId) b
  | array item count => do Growth.insert (.array (← derive item) (.ofNat count))
  | option inner => do
    let none ← Growth.define .unit
    let some ← derive inner
    Growth.insert (.union [(.int 0, .text "none", none), (.int 1, .text "some", some)])
  | tuple items => do Growth.insert (.tuple (← deriveItems items))
  | struct _ fields _ wrapped =>
    match fields, wrapped with
    | (_, c) :: _, true => derive c
    | [], _ => Growth.define .unit
    | fields, false => do Growth.insert (.struct (← deriveFields fields))
  | union _ variants => do Growth.insert (.union (← deriveVariants variants))
  | enumeration decl =>
    Growth.insert (.enumeration (decl.members.map fun (m, tag) => (.text m, .ofNat tag)))

/-- Derives codecs in order. -/
def deriveItems : List Codec → Growth (List SemId)
  | [] => return []
  | c :: rest => do
    let sid ← derive c
    return sid :: (← deriveItems rest)

/-- Derives the codecs of fields in order. -/
def deriveFields : List (String × Codec) → Growth (List (Value × SemId))
  | [] => return []
  | (name, c) :: rest => do
    let sid ← derive c
    return (.text name, sid) :: (← deriveFields rest)

/-- Derives the codecs of variants in order. -/
def deriveVariants : List (Nat × String × Codec) → Growth (List (Value × Value × SemId))
  | [] => return []
  | (tag, name, c) :: rest => do
    let sid ← derive c
    return (.ofNat tag, .text name, sid) :: (← deriveVariants rest)

end

end Codec

end StrictContract
