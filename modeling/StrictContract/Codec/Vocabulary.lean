import StrictContract.Codec.Declaration
import StrictContract.Value.Member
import StrictContract.Value.Record

/-! # Vocabularies — the types that codecs declare on the way

Enumerations and record types are declared together with the codecs that use them. A **vocabulary**
holds what was declared so far and gives every declaration a serial number of its own, by which two
types that look alike stay apart. Members and records are asked for by the name of their type; of
declarations with one name the newest counts. -/

namespace StrictContract

/-- A type that a codec declares. -/
inductive Declared where
  | enumeration (e : Enumeration)
  | record (type : RecordType)

/-- The name of a declared type. -/
def Declared.name : Declared → String
  | enumeration e => e.name
  | record type => type.name

/-- A **vocabulary**, newest declaration first. -/
abbrev Vocabulary : Type := List Declared

namespace Vocabulary

/-- The serial number of the next declaration. -/
def next (v : Vocabulary) : Nat := v.length + 1

/-- The newest declaration with a given name. -/
def named (v : Vocabulary) (name : String) : Except Failure Declared :=
  match v.find? fun d => d.name = name with
  | some d => .ok d
  | none => misuse (.missingKey name)

/-- Declares an enumeration. -/
def enumeration? (v : Vocabulary) (name : String) (entries : List (String × Int)) :
    Except Failure (Codec × Vocabulary) := do
  let e ← Enumeration.of? name entries
  let e := { e with serial := v.next }
  return (.enumeration e, .enumeration e :: v)

/-- Declares a struct together with the type of its records. -/
def struct? (v : Vocabulary) (name : String) (fields : List (String × Codec × Bool))
    (wrapped : Bool) : Except Failure (Codec × Vocabulary) := do
  let type : RecordType := ⟨name, fields.map Prod.fst, v.next⟩
  return (← Codec.struct? name fields (.declared type) wrapped, .record type :: v)

/-- The member of a declared enumeration with a given name. -/
def member (v : Vocabulary) (type name : String) : Except Failure Value := do
  match ← v.named type with
  | .record _ => misuse .wrongType
  | .enumeration e =>
    match e.named? name with
    | some (member, tag) => return .member e member tag
    | none => misuse (.missingKey name)

/-- The fields, besides `value`, that may be given in place of the fields of a record when the type
is an enumeration; they do not matter. -/
def idleFields : List String := ["module", "qualname", "type", "start", "boundary"]

/-- The member of an enumeration that is asked for like a record, by a field `value`. -/
def memberOfFields (e : Enumeration) (given : List (String × Value)) : Except Failure Value :=
  let known := given.all fun (name, _) => (["value", "names"] ++ idleFields).contains name
  match known, given.reverse.lookup "value", given.reverse.lookup "names" with
  | true, some v, none | true, some v, some .null => e.memberOf? v
  | _, _, _ => misuse .wrongType

/-- The record of a declared type with the given fields. -/
def record (v : Vocabulary) (type : String) (given : List (String × Value)) :
    Except Failure Value := do
  match ← v.named type with
  | .record type => type.recordOf given
  | .enumeration e => memberOfFields e given

end Vocabulary

end StrictContract
