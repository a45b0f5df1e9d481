import StrictContract.Contract.Consignment

/-! # Catalogue — the codecs that have a name of their own

The canonical encodings of the records of this library, by the names under which they are known. -/

namespace StrictContract.Codec

/-- The codec of the records with a given name. -/
def named? : String → Option Codec
  | "TY_DEF" => some TypeDef.codec
  | "TYPE_SYSTEM" => some TypeSystem.codec
  | "IDENT" => some TypeDef.identCodec
  | "SIZING" => some TypeDef.sizingCodec
  | "TXID" => some (.id .transaction)
  | "OUTPOINT" => some Outpoint.codec
  | "REVEALED_SEAL" => some Seal.codec
  | "OPOUT" => some Opout.codec
  | "TYPED_ASSIGNS" => some Assignments.codec
  | "METADATA" => some OperationState.metadataCodec
  | "GLOBAL_STATE" => some OperationState.globalsCodec
  | "ASSIGNMENTS" => some OperationState.assignmentsCodec
  | "ISSUER" => some Genesis.issuerCodec
  | "GENESIS" => some Genesis.codec
  | "TRANSITION" => some Transition.codec
  | "OPERATION" => some Operation.codec
  | "PUB_WITNESS" => some Witness.codec
  | "INPUT_MAP" => some Bundle.inputMapCodec
  | "TRANSITION_BUNDLE" => some Bundle.codec
  | "WITNESS_BUNDLE" => some WitnessBundle.codec
  | "OCCURRENCES" => some Occurrences.codec
  | "LIB_SITE" => some LibSite.codec
  | "OWNED_STATE_SCHEMA" => some StateSchema.codec
  | "GENESIS_SCHEMA" => some Schema.genesisCodec
  | "TRANSITION_SCHEMA" => some Schema.transitionCodec
  | "SCHEMA" => some Schema.codec
  | "LIB" => some Consignment.libraryCodec
  | "CONSIGNMENT" => some Consignment.codec
  | _ => none

end StrictContract.Codec
