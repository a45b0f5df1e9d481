import StrictContract.Codec.Read
import StrictContract.Contract.Bundle
import StrictContract.Contract.Schema

/-! # Consignments — everything needed to verify the history of a contract

A **consignment** carries the genesis, the bundles with their witnesses, the schema with its type
system and the script libraries. Its terminals name the concealed seals that it hands over. -/

namespace StrictContract

/-- The id of a script library. -/
def libraryId (code : Octets) : LibId := Id.ofContent .library code

/-- A **consignment**. -/
structure Consignment where
  version : Value
  transfer : Value
  terminals : Table BundleId (List SecretSeal)
  genesis : Genesis
  bundles : List WitnessBundle
  schema : Schema
  types : TypeSystem
  scripts : List Octets

namespace Consignment

/-- The versions of consignments. -/
def versions : Enumeration where
  name := "ConsignmentVersion"
  names := [("V0", 0)]

/-- The codec of script libraries. -/
def libraryCodec : Codec :=
  .struct "Lib" [("code", .bytes .shortNonempty (some "LibCode"))] (.record "Lib") true

/-- The codec of consignments. -/
def codec : Codec :=
  .struct "Consignment"
    [("version", .enumeration versions), ("transfer", .bool),
     ("terminals",
       .map (.id .bundle) (.set (.id .secretSeal) .tinyNonempty .members none)
         .short .mapping none),
     ("genesis", Genesis.codec),
     ("bundles", .list WitnessBundle.codec { min := 0, max := 0xffffff } none),
     ("schema", Schema.codec), ("types", TypeSystem.codec),
     ("scripts", .set libraryCodec .tiny .members none)]
    (.record "Consignment") false

/-- The record of a consignment. -/
def toValue (c : Consignment) : Value :=
  .record "Consignment"
    [("version", c.version), ("transfer", c.transfer),
     ("terminals", .map (c.terminals.entries.map fun (id, seals) =>
       (.id .bundle id, .set (seals.map (.id .secretSeal))))),
     ("genesis", c.genesis.toValue), ("bundles", .tuple (c.bundles.map WitnessBundle.toValue)),
     ("schema", c.schema.toValue), ("types", c.types.toValue),
     ("scripts", .set (c.scripts.map .bytes))]

/-- The consignment that a record describes. -/
def ofValue? (v : Value) : Option Consignment := do
  let terminals ← (← (← v.part? "terminals").entries?).mapM fun (k, x) => do
    return (← k.id? .bundle, ← (← x.sequence?).mapM (Value.id? .secretSeal))
  return {
    version := ← v.part? "version"
    transfer := ← v.part? "transfer"
    terminals := .ofList terminals
    genesis := ← Genesis.ofValue? (← v.part? "genesis")
    bundles := ← (← (← v.part? "bundles").sequence?).mapM WitnessBundle.ofValue?
    schema := ← Schema.ofValue? (← v.part? "schema")
    types := ← TypeSystem.ofRecord? (← v.part? "types")
    scripts := ← (← (← v.part? "scripts").sequence?).mapM fun x => do (← x.part? "code").octets? }

/-- The canonical bytes of a consignment. -/
def encode (c : Consignment) : Except Failure Octets := codec.write c.toValue

/-- The consignment that a byte string encodes. -/
def decode (octets : Octets) : Except Failure Consignment := do
  match ofValue? (← codec.decode octets) with
  | some c => return c
  | none => misuse .wrongType

/-- The id of a consignment. -/
def consignmentId (c : Consignment) : Except Failure ConsignmentId := do
  return Id.ofContent .consignment (← c.encode)

/-- The ids of the carried script libraries. -/
def libraryIds (c : Consignment) : List LibId := c.scripts.map libraryId

end Consignment

end StrictContract
