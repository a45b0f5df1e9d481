import StrictContract.Codec.Charset
import StrictContract.Document.Schema

/-! # The form of type libraries — the schema of their documents

A document of a type library names the library and declares at least one type. A declaration is a
reference to another type, or a mapping of exactly one of twelve forms. -/

namespace StrictContract

namespace DocumentSchema

/-- An integer of one byte. -/
def byte : DocumentSchema := integer 0 0xff

/-- An integer of four bytes. -/
def word : DocumentSchema := integer 0 0xffffffff

/-- A reference to a type. -/
def typeReference : DocumentSchema := text .reference

/-- The name of a charset. -/
def charsetName : DocumentSchema := among (Charset.all.map fun cs => .text cs.name)

/-- The payload of a union variant. -/
def unionVariant : DocumentSchema := record ["tag", "type"] [("tag", byte), ("type", typeReference)]

/-- A field of a struct. -/
def structField : DocumentSchema := dictionary 1 (some 1) typeReference

/-- A declaration of one form, with the key that gives it its name. -/
def form (name : String) (content : DocumentSchema) (others : List (String × DocumentSchema)) :
    DocumentSchema :=
  record [name] ((name, content) :: others)

/-- The bounds of a collection. -/
def bounds : List (String × DocumentSchema) := [("min", word), ("max", word)]

/-- A declaration of a type. -/
def declaration : DocumentSchema :=
  exactlyOne [
    typeReference,
    form "primitive" (among ([0, 1, 2, 3, 4, 8, 16, 32].map Value.int)) [],
    form "unicode" null [],
    form "enum" (dictionary 1 (some 255) byte) [],
    form "union" (dictionary 1 (some 255) unionVariant) [],
    form "option" typeReference [],
    form "tuple" (list 1 (some 255) false typeReference) [],
    form "struct" (list 1 (some 255) false structField) [],
    record ["array", "len"] [("array", typeReference), ("len", integer 1 0xffff)],
    form "list" typeReference bounds,
    form "ascii" charsetName (("first", charsetName) :: bounds),
    form "set" typeReference bounds,
    form "map" (pair typeReference typeReference) bounds]

/-- A document of a type library. -/
def typeLibrary : DocumentSchema :=
  record ["library", "types"] [
    ("library", text .identifier),
    ("description", text .any),
    ("uses", list 0 none true (text .identifier)),
    ("types", dictionary 1 none declaration)]

/-- The schema with a given name: that of type libraries, or that of the definitions which schemas
share, which asks for nothing. -/
def named? : String → Option DocumentSchema
  | "typelib" => some typeLibrary
  | "common" => some anything
  | _ => none

/-- The wording for a name that no schema has. -/
def absenceMessage (name : String) : String := "no bundled schema named " ++ Text.quoted name

end DocumentSchema

end StrictContract
