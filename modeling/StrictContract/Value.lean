import StrictContract.Enumeration
import StrictContract.Identifier
import StrictContract.RecordType
import StrictContract.Text.Surrogate

/-! # Values — what is encoded, decoded and declared

A **value** is any datum that a codec may be asked to write or that it reads: scalars, sequences,
sets, mappings, members of enumerations, records with named fields, and **tagged** values, which
carry the name of their union variant. Documents of type libraries are values too. Besides its data
a value has **features**, such as the operations on it and its type; they can be asked for by name
but are no data. -/

namespace StrictContract

/-- A **value**. -/
inductive Value where
  | null
  | bool (b : Bool)
  | int (n : Int)
  | text (s : String)
  /-- A text with a surrogate in it. -/
  | broken (t : BrokenText)
  | bytes (octets : Octets)
  | id (kind : IdKind) (identifier : Id kind)
  | list (items : List Value)
  | tuple (items : List Value)
  | set (items : List Value)
  | map (entries : List (Value × Value))
  | tagged (variant : String) (value : Value)
  /-- A record of one of the types of this library. -/
  | record (type : String) (fields : List (String × Value))
  /-- A record of a type that a struct declares. -/
  | declared (type : RecordType) (fields : List (String × Value))
  | member (enumeration : Enumeration) (name : String) (tag : Int)
  /-- A feature of some value: what sort of thing it is, and how it is shown. -/
  | feature (sort shown : String)

namespace Value

/-- The name of a value's type. -/
def typeName : Value → String
  | null => "NoneType"
  | bool _ => "bool"
  | int _ => "int"
  | text _ => "str"
  | broken _ => "str"
  | bytes _ => "bytes"
  | id kind _ => kind.name
  | list _ => "list"
  | tuple _ => "tuple"
  | set _ => "frozenset"
  | map _ => "dict"
  | tagged _ _ => "Tagged"
  | record type _ => type
  | declared type _ => type.name
  | member enumeration _ _ => enumeration.name
  | feature sort _ => sort

/-- The bytes of a byte string, of an identifier or of a script library. -/
def octets? : Value → Option Octets
  | bytes octets => some octets
  | id _ identifier => some identifier.octets
  | record "Lib" [(_, bytes octets)] => some octets
  | _ => none

/-- The number that a value stands for in comparisons: a boolean is zero or one, a member its
tag. -/
def number? : Value → Option Int
  | bool b => some (if b then 1 else 0)
  | int n => some n
  | member _ _ tag => some tag
  | _ => none

/-- Whether a value is a member of an enumeration that takes an ability away from its members. -/
def lacks (v : Value) (ability : String) : Bool :=
  match v with
  | member enumeration _ _ => enumeration.lacks ability
  | _ => false

/-- The code points of a text. -/
def codePoints? : Value → Option (List CodePoint)
  | text s => some (CodePoint.ofString s)
  | broken t => some t.codePoints
  | _ => none

/-- The text of a single code point. -/
def ofCodePoint : CodePoint → Value
  | .character c => text c.toString
  | .surrogate s => broken ⟨[], s, []⟩

/-- What a loop over the value visits: the items of a sequence or set, the characters of a text, the
bytes of a byte string as numbers, the keys of a mapping, the two parts of a tagged value. -/
def items? : Value → Option (List Value)
  | list items => some items
  | tuple items => some items
  | set items => some items
  | text s => some (s.toList.map fun c => text c.toString)
  | broken t => some (t.codePoints.map ofCodePoint)
  | bytes octets => some (octets.map fun b => int b.toNat)
  | id _ identifier => some (identifier.octets.map fun b => int b.toNat)
  | map entries => some (entries.map Prod.fst)
  | tagged variant value => some [text variant, value]
  | _ => none

/-- The named parts of a record or of a tagged value. -/
def part? (v : Value) (name : String) : Option Value :=
  match v with
  | record _ fields => fields.lookup name
  | declared _ fields => fields.lookup name
  | tagged variant value =>
    if name = "name" then some (text variant) else if name = "value" then some value else none
  | _ => none

/-! ## Parts of a known shape -/

/-- The identifier that a value is. -/
def id? (kind : IdKind) : Value → Option (Id kind)
  | id kind' x => if kind' = kind then some (x.cast kind) else none
  | _ => none

/-- The integer that a value is. -/
def int? : Value → Option Int
  | int n => some n
  | _ => none

/-- The items of a sequence or a set. -/
def sequence? : Value → Option (List Value)
  | list items => some items
  | tuple items => some items
  | set items => some items
  | _ => none

/-- The entries of a mapping. -/
def entries? : Value → Option (List (Value × Value))
  | map entries => some entries
  | _ => none

/-! ## Building values -/

/-- The entries of a mapping with text keys. -/
def ofFields (fields : List (String × Value)) : Value :=
  map (fields.map fun (name, v) => (text name, v))

/-- A list of texts. -/
def ofTexts (texts : List String) : Value := list (texts.map text)

/-- A natural number as a value. -/
def ofNat (n : Nat) : Value := int n

/-- An optional value, absence being null. -/
def ofOption {α : Type} (f : α → Value) : Option α → Value
  | none => null
  | some a => f a

end Value

end StrictContract
