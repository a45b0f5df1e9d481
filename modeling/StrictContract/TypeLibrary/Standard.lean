import StrictContract.Contract.Schema
import StrictContract.TypeLibrary.Compilation

/-! # Standard libraries — the types that contracts share

Two libraries come with this one: **Bitcoin** holds the consensus types that contract data refers
to, **RGBContract** the common types of contract data, such as amounts, tickers, asset
specifications, terms and proofs of reserves. They may be extended by one further library. -/

namespace StrictContract

/-! ## Declarations -/

namespace Declaration

/-- A mapping with text keys. -/
def entries (fields : List (String × Value)) : Value := .ofFields fields

/-- A number of items of one type. -/
def arrayOf (item : String) (length : Int) : Value :=
  entries [("array", .text item), ("len", .int length)]

/-- A bounded sequence. -/
def listOf (item : String) (min max : Int) : Value :=
  entries [("list", .text item), ("min", .int min), ("max", .int max)]

/-- A bounded set. -/
def setOf (item : String) (min max : Int) : Value :=
  entries [("set", .text item), ("min", .int min), ("max", .int max)]

/-- A string over one charset. -/
def textOf (charset : Charset) (min max : Int) : Value :=
  entries [("ascii", .text charset.name), ("min", .int min), ("max", .int max)]

/-- A string with a charset of its own for the first character. -/
def splitTextOf (first rest : Charset) (min max : Int) : Value :=
  entries [("ascii", .text rest.name), ("first", .text first.name), ("min", .int min),
    ("max", .int max)]

/-- An optional value. -/
def optionOf (inner : String) : Value := entries [("option", .text inner)]

/-- Named fields. -/
def structOf (fields : List (String × String)) : Value :=
  entries [("struct", .list (fields.map fun (name, ty) => entries [(name, .text ty)]))]

/-- Named members, tagged from zero on. -/
def membersOf (names : List String) : Value :=
  entries [("enum", entries (names.zipIdx.map fun (name, tag) => (name, .ofNat tag)))]

/-- The declarations of a library. -/
def named (declarations : List (String × Value)) : List (Value × Value) :=
  declarations.map fun (name, v) => (.text name, v)

end Declaration

/-! ## The libraries -/

namespace TypeLibrary

open Declaration

/-- The **Bitcoin** library. -/
def bitcoin : TypeLibrary where
  name := "Bitcoin"
  uses := []
  description := "Bitcoin consensus data types referenced by contract data"
  declarations := named [
    ("Txid", arrayOf "U8" 32),
    ("Vout", .text "U32"),
    ("Outpoint", structOf [("txid", "Txid"), ("vout", "Vout")]),
    ("ScriptPubkey", listOf "U8" 0 4294967295),
    ("Sats", .text "U64"),
    ("TxOut", structOf [("value", "Sats"), ("scriptPubkey", "ScriptPubkey")])]

/-- The **RGBContract** library. -/
def rgbContract : TypeLibrary where
  name := "RGBContract"
  uses := ["Bitcoin"]
  description := "Standard data types which may be used in RGB smart contracts"
  declarations := named [
    ("Amount", .text "U64"),
    ("Precision", membersOf [
      "indivisible", "deci", "centi", "milli", "deciMilli", "centiMilli", "micro", "deciMicro",
      "centiMicro", "nano", "deciNano", "centiNano", "pico", "deciPico", "centiPico", "femto",
      "deciFemto", "centiFemto", "atto"]),
    ("Ticker", splitTextOf .alphaCaps .alphaCapsNum 1 8),
    ("Name", textOf .printable 1 40),
    ("Details", textOf .printable 1 255),
    ("DetailsOpt", optionOf "Details"),
    ("AssetSpec", structOf [
      ("ticker", "Ticker"), ("name", "Name"), ("details", "DetailsOpt"),
      ("precision", "Precision")]),
    ("ContractSpec", structOf [
      ("article", "ArticleOpt"), ("name", "Name"), ("details", "DetailsOpt"),
      ("precision", "Precision")]),
    ("Article", listOf "U8" 1 32),
    ("ArticleOpt", optionOf "Article"),
    ("MediaRegName", listOf "U8" 1 64),
    ("MediaRegNameOpt", optionOf "MediaRegName"),
    ("MediaType", structOf [
      ("type", "MediaRegName"), ("subtype", "MediaRegNameOpt"), ("charset", "MediaRegNameOpt")]),
    ("Digest32", arrayOf "U8" 32),
    ("Attachment", structOf [("ty", "MediaType"), ("digest", "Digest32")]),
    ("AttachmentOpt", optionOf "Attachment"),
    ("RicardianContract", listOf "U8" 0 65535),
    ("ContractTerms", structOf [("text", "RicardianContract"), ("media", "AttachmentOpt")]),
    ("ReserveProof", listOf "U8" 0 65535),
    ("ProofOfReserves", structOf [("utxo", "Bitcoin.Outpoint"), ("proof", "ReserveProof")]),
    ("ProofSet", setOf "ProofOfReserves" 0 255),
    ("BurnMeta", structOf [("burnProofs", "ProofSet")]),
    ("IssueMeta", structOf [("reserves", "ProofSet")]),
    ("AttachmentType", structOf [("id", "U8"), ("name", "Name")]),
    ("EmbeddedMedia", structOf [("type", "MediaType"), ("data", "RicardianContract")]),
    ("TokenIndex", .text "U32"),
    ("TokenData", structOf [
      ("index", "TokenIndex"), ("ticker", "TickerOpt"), ("name", "NameOpt"),
      ("details", "DetailsOpt"), ("preview", "EmbeddedMediaOpt")]),
    ("TickerOpt", optionOf "Ticker"),
    ("NameOpt", optionOf "Name"),
    ("EmbeddedMediaOpt", optionOf "EmbeddedMedia"),
    ("OpidRejectUrl", listOf "U8" 1 255)]

/-- The libraries that come with this one. -/
def standard : List TypeLibrary := [bitcoin, rgbContract]

end TypeLibrary

/-! ## Standard types -/

/-- The **standard types**: the types of the standard libraries and of their extension, if any. -/
structure StandardTypes where
  /-- The compiled libraries in the order of their compilation. -/
  systems : List (String × SymbolicSystem)
  /-- The libraries in which an unqualified name is looked up, in order. -/
  order : List String
  types : TypeSystem

namespace StandardTypes

/-- The types of several systems together. -/
def mergeAll (systems : List (String × SymbolicSystem)) : TypeSystem.Growth Unit :=
  systems.forM fun (_, sys) => do
    let _ ← TypeSystem.Growth.merge sys.types

/-- Compiles some libraries, and after them an extension, in which an unqualified name is looked up
before it is looked up in the others in order. -/
def compileOver (base : List TypeLibrary) (order : List String) (extension : Option TypeLibrary) :
    Logged StandardTypes := do
  let systems ← TypeLibrary.compileAll (base ++ extension.toList)
  let order := extension.toList.map TypeLibrary.name ++ order
  let (r, types) := (mergeAll systems).run .empty
  liftM r
  return { systems, order, types }

/-- Compiles the standard libraries, and after them an extension. -/
def compile (extension : Option TypeLibrary) : Logged StandardTypes :=
  compileOver TypeLibrary.standard ["RGBContract", "Bitcoin"] extension

/-- The standard types without an extension. -/
def plain : Except Failure StandardTypes := (compile none).result

/-- The compiled library with a name. -/
def library (st : StandardTypes) (name : String) : Except Failure SymbolicSystem :=
  match st.systems.lookup name with
  | some sys => .ok sys
  | none => misuse (.missingKey name)

/-- The systems in which a name is looked up, and the name that is looked up there: in the library
that qualifies it, or in each library in order. -/
def candidates (st : StandardTypes) (name : String) : List SymbolicSystem × String :=
  match Text.cutLast? '.' name with
  | some (library, localName) => ((st.systems.lookup library).toList, localName)
  | none => (st.order.filterMap fun lib => st.systems.lookup lib, name)

/-- The id of a standard type. -/
def get (st : StandardTypes) (name : String) : Except Failure SemId :=
  let (systems, localName) := st.candidates name
  match systems.findSome? fun sys => sys.names.lookup localName with
  | some sid => .ok sid
  | none => misuse (.missingKey s!"type '{name}' is absent in standard RGBContract type library")

/-- A standard type with everything it refers to. -/
def closure (st : StandardTypes) (name : String) : Except Failure TypeSystem := do
  st.types.extract [← st.get name]

/-- The standard types that a schema refers to, with everything they refer to. -/
def typesOf (st : StandardTypes) (schema : Schema) : Except Failure TypeSystem :=
  match st.types.extract schema.types with
  | .error (.strict e) =>
    if e.kind = .unresolvedTypeReference then
      misuse (.missingKey
        s!"schema {schema.name.display} refers to a non-standard type: {e.rendered}")
    else .error (.strict e)
  | r => r

end StandardTypes

end StrictContract
