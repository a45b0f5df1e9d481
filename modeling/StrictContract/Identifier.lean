import StrictContract.Octets

/-! # Identifiers — 32-byte names of content, one type for each kind of content

An **identifier** is 32 bytes together with the kind of content it names, so a bundle id can never
stand where an operation id is meant. Kinds that are derived from content carry the **domain tag**
under which the content is hashed. An identifier is shown as the hexadecimal text of its bytes; a
transaction id is shown with its bytes reversed. -/

namespace StrictContract

/-- What an identifier names. -/
inductive IdKind where
  | plain
  | sem
  | schema
  | operation
  | contract
  | bundle
  | consignment
  | disclosure
  | library
  | secretSeal
  | transaction
deriving DecidableEq

namespace IdKind

/-- Every kind of identifier. -/
def all : List IdKind :=
  [plain, sem, schema, operation, contract, bundle, consignment, disclosure, library, secretSeal,
   transaction]

/-- The name of the kind, as messages and the path of a rejected identifier show it. -/
def name : IdKind → String
  | plain => "Id32"
  | sem => "SemId"
  | schema => "SchemaId"
  | operation => "OpId"
  | contract => "ContractId"
  | bundle => "BundleId"
  | consignment => "ConsignmentId"
  | disclosure => "DiscloseHash"
  | library => "LibId"
  | secretSeal => "SecretSeal"
  | transaction => "Txid"

/-- The kind with a given name. -/
def ofName? (s : String) : Option IdKind := all.find? fun k => k.name == s

/-- The domain tag of content named by this kind; empty for kinds that are not derived from content
by a tagged commitment. A contract is named by the id of its genesis, so both share a tag. -/
def tag : IdKind → String
  | plain => ""
  | sem => "rgbcore.semid.v1"
  | schema => "rgbcore.schema.v1"
  | operation => "rgbcore.operation.v1"
  | contract => "rgbcore.operation.v1"
  | bundle => "rgbcore.bundle.v1"
  | consignment => "rgbcore.consignment.v1"
  | disclosure => "rgbcore.disclosure.v1"
  | library => "rgbcore.library.v1"
  | secretSeal => "rgbcore.secret-seal.v1"
  | transaction => ""

end IdKind

/-- An **identifier** of the given kind. -/
structure Id (kind : IdKind) where
  /-- The bytes, in the order in which they are encoded and compared. -/
  octets : Octets
  length_octets : octets.length = 32
deriving DecidableEq

/-- Identifier of a type definition. -/
abbrev SemId := Id .sem

/-- Identifier of a contract schema. -/
abbrev SchemaId := Id .schema

/-- Identifier of an operation. -/
abbrev OpId := Id .operation

/-- Identifier of a contract. -/
abbrev ContractId := Id .contract

/-- Identifier of a transition bundle. -/
abbrev BundleId := Id .bundle

/-- Identifier of a consignment. -/
abbrev ConsignmentId := Id .consignment

/-- Commitment to a bundle together with its witness. -/
abbrev DiscloseHash := Id .disclosure

/-- Identifier of a script library. -/
abbrev LibId := Id .library

/-- Commitment to a concealed seal. -/
abbrev SecretSeal := Id .secretSeal

/-- Identifier of a transaction. -/
abbrev Txid := Id .transaction

namespace Id

variable {kind : IdKind}

/-- Identifiers of one kind with the same bytes are equal. -/
@[ext] theorem ext {x y : Id kind} (h : x.octets = y.octets) : x = y := by
  cases x; cases y; cases h; rfl

/-- The same bytes read as an identifier of another kind. -/
def cast (x : Id kind) (other : IdKind) : Id other := ⟨x.octets, x.length_octets⟩

@[simp] theorem octets_cast (x : Id kind) (other : IdKind) : (x.cast other).octets = x.octets := rfl

/-- The bytes in the order in which they are shown. -/
def shownOctets (x : Id kind) : Octets :=
  if kind = .transaction then x.octets.reverse else x.octets

/-- The bytes in encoding order, as text. -/
def hex (x : Id kind) : String := x.octets.toHex

/-- The text by which people know the identifier. -/
def text (x : Id kind) : String := x.shownOctets.toHex

/-- The text with the name of the kind around it. -/
def described (x : Id kind) : String := kind.name ++ "(" ++ x.text ++ ")"

/-- Byte-wise order of identifiers, as a test. -/
def le (x y : Id kind) : Bool := x.octets.le y.octets

end Id

end StrictContract
