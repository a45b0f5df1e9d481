import StrictContract.Contract.Check

/-! # Stashes — the records of all contracts that a wallet knows

A **stash** keeps schemas, geneses, bundles, witnesses, script libraries and types by their ids, and
the seals that the wallet concealed. Records that are known already are merged with the new view, so
a later consignment that reveals more enriches what is kept. -/

namespace StrictContract

/-- A **stash**. -/
structure Stash where
  schemata : Table SchemaId Schema
  geneses : Table ContractId Genesis
  bundles : Table BundleId Bundle
  witnesses : Table Txid Witness
  libraries : Table LibId Octets
  seals : List Seal
  types : TypeSystem

namespace Stash

/-- The stash without records. -/
def empty : Stash := ⟨.empty, .empty, .empty, .empty, .empty, [], .empty⟩

/-! ## Reading -/

/-- A record that is expected to be kept. -/
def expect {kind : IdKind} {α : Type} (what : String) (t : Table (Id kind) α) (id : Id kind) :
    Except Failure α :=
  match t.get? id with
  | some a => .ok a
  | none => .error (.absent what id.text)

/-- The schema with an id. -/
def schema (s : Stash) (id : SchemaId) : Except Failure Schema := expect "schema" s.schemata id

/-- The genesis of a contract. -/
def genesis (s : Stash) (id : ContractId) : Except Failure Genesis := expect "contract" s.geneses id

/-- The bundle with an id. -/
def bundle (s : Stash) (id : BundleId) : Except Failure Bundle := expect "bundle" s.bundles id

/-- The witness with an id. -/
def witness (s : Stash) (id : Txid) : Except Failure Witness := expect "witness" s.witnesses id

/-- The script library with an id. -/
def library (s : Stash) (id : LibId) : Except Failure Octets := expect "library" s.libraries id

/-- The first of some seals that a commitment is to; no seal behind it is concealed. -/
def sealBehind (secret : SecretSeal) : List Seal → Except Failure (Option Seal)
  | [] => .ok none
  | x :: rest => do
    if (← x.conceal) = secret then return some x
    sealBehind secret rest

/-- The seal behind a commitment, if the wallet has it. -/
def secretSeal (s : Stash) (secret : SecretSeal) : Except Failure (Option Seal) :=
  sealBehind secret s.seals

/-- The wallet's seals, ascending by the commitments to them. -/
def secretSeals (s : Stash) : Except Failure (List Seal) := do
  let concealed ← s.seals.mapM fun x => return (← x.conceal, x)
  return (concealed.mergeSort fun a b => a.1.le b.1).map Prod.snd

/-- The commitments to the wallet's seals in ascending order. -/
def concealedSeals (s : Stash) : Except Failure (List SecretSeal) := do
  (← s.secretSeals).mapM Seal.conceal

/-- A script library in words. -/
def described (code : Octets) : String :=
  "Lib(" ++ (libraryId code).text ++ s!", {code.length} bytes)"

/-! ## Writing

Every function tells whether the record is new. -/

/-- Keeps a schema; one that is known stays. -/
def replaceSchema (s : Stash) (x : Schema) : Except Failure (Bool × Stash) := do
  let id ← x.schemaId
  return (!s.schemata.contains id, { s with schemata := s.schemata.putNew id x })

/-- Keeps a genesis in place of the one that is known. -/
def replaceGenesis (s : Stash) (x : Genesis) : Except Failure (Bool × Stash) := do
  let id ← x.contractId
  return (!s.geneses.contains id, { s with geneses := s.geneses.put id x })

/-- Keeps a bundle, merged with the view that is known. -/
def replaceBundle (s : Stash) (x : Bundle) : Except Failure (Bool × Stash) := do
  let id ← x.bundleId
  match s.bundles.get? id with
  | some known => return (false, { s with bundles := s.bundles.put id (← known.merge x) })
  | none => return (true, { s with bundles := s.bundles.put id x })

/-- Keeps a witness, merged with the view that is known. -/
def replaceWitness (s : Stash) (x : Witness) : Except Failure (Bool × Stash) := do
  let id := x.witnessId
  match s.witnesses.get? id with
  | some known => return (false, { s with witnesses := s.witnesses.put id (← known.merge x) })
  | none => return (true, { s with witnesses := s.witnesses.put id x })

/-- Keeps a script library. -/
def replaceLibrary (s : Stash) (code : Octets) : Bool × Stash :=
  let id := libraryId code
  (!s.libraries.contains id, { s with libraries := s.libraries.put id code })

/-- Keeps the types of a type system. -/
def consumeTypes (s : Stash) (types : TypeSystem) : Except Failure Stash :=
  match (TypeSystem.Growth.merge types).run s.types with
  | (.ok _, merged) => .ok { s with types := merged }
  | (.error f, _) => .error f

/-- Keeps a seal that the wallet concealed. -/
def addSecretSeal (s : Stash) (x : Seal) : Except Failure (Bool × Stash) :=
  if x.vout.isKey && x.blinding.isKey then
    let present := s.seals.any x.same
    .ok (!present, if present then s else { s with seals := s.seals ++ [x] })
  else misuse .wrongType

/-- Keeps a bundle and its witness, counting new bundles. -/
def consumeBundle (acc : Nat × Stash) (w : WitnessBundle) : Except Failure (Nat × Stash) := do
  let (new, s) ← acc.2.replaceBundle w.bundle
  let (_, s) ← s.replaceWitness w.witness
  return (if new then acc.1 + 1 else acc.1, s)

/-- The event that tells of a stored consignment. -/
def stored (v : ValidConsignment) (new : Nat) : Event :=
  .of .stash "stash" .info "consignment stored"
    [("contract_id", .text v.contractId.text),
     ("bundles", .ofNat v.consignment.bundles.length), ("new_bundles", .ofNat new)]

/-- Keeps every record of an accepted consignment, and counts the new bundles. -/
def consume (s : Stash) (v : ValidConsignment) : Except Failure (Nat × Stash) := do
  let c := v.consignment
  let (_, s) ← s.replaceSchema c.schema
  let s ← s.consumeTypes c.types
  let (_, s) ← s.replaceGenesis c.genesis
  let (new, s) ← c.bundles.foldlM consumeBundle (0, s)
  return (new, c.scripts.foldl (fun s code => (s.replaceLibrary code).2) s)

end Stash

end StrictContract
