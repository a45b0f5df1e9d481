import StrictContract.Contract.Conformance
import StrictContract.Contract.Consignment

/-! # Checking consignments — every violation of a contract's history

A consignment is **checked** by recomputing every identifier that it carries, checking schema and
operations, following every input to the assignment it spends, every terminal to a concealed seal
and every validation script to a carried library. A consignment without violations is **accepted**,
and then all its identifiers are known. -/

namespace StrictContract

/-! ## Recomputed identifiers -/

/-- A transition of a bundle: the id that it is carried under, and the id that its content has if it
can be encoded. -/
structure IndexedTransition where
  key : OpId
  opId : Option OpId
  transition : Transition

/-- A bundle with its recomputed identifiers. -/
structure IndexedBundle where
  bundleId : Option BundleId
  inputMap : Table Opout OpId
  transitions : List IndexedTransition

/-- The recomputed identifiers of a consignment. An identifier is absent when what it names cannot
be encoded. -/
structure ConsignmentIndex where
  schemaId : Option SchemaId
  contractId : Option ContractId
  consignmentId : Option ConsignmentId
  /-- The operations by their recomputed ids. -/
  operations : Table OpId Operation
  bundles : List IndexedBundle

/-- The concealed seals of a bundle. -/
def IndexedBundle.secrets (b : IndexedBundle) : List SecretSeal :=
  b.transitions.flatMap fun t => t.transition.state.assignments.values.flatMap Assignments.secrets

/-- The bundle with an id; of bundles with one id the last. -/
def ConsignmentIndex.bundle? (ix : ConsignmentIndex) (id : BundleId) : Option IndexedBundle :=
  ix.bundles.reverse.find? fun b => b.bundleId == some id

/-- A result, or the violation that there is none; misuse stays a failure. -/
def recompute {α : Type} (path : String) (x : Except Failure α) :
    Except Failure (Option α × List StrictError) :=
  match x with
  | .ok a => .ok (some a, [])
  | .error (.strict e) => .ok (none, [e.within path])
  | .error f => .error f

/-- The place of a bundle inside a consignment. -/
def bundlePath (i : Nat) : String := s!"bundles[{i}].bundle"

/-- The place of a transition inside a bundle. -/
def transitionPath (bundle : String) (id : OpId) : String :=
  bundle ++ ".known_transitions[" ++ id.hex ++ "]"

namespace WitnessBundle

/-- The recomputed identifiers of a transition. -/
def indexTransition (path : String) (key : OpId) (t : Transition) :
    Except Failure (IndexedTransition × List StrictError) := do
  let (opId, errors) ← recompute (transitionPath path key) t.opId
  return (⟨key, opId, t⟩, errors)

/-- The recomputed identifiers of the bundle at a position. -/
def index (w : WitnessBundle) (i : Nat) : Except Failure (IndexedBundle × List StrictError) := do
  let path := bundlePath i
  let (bundleId, errors) ← recompute (path ++ ".input_map") w.bundle.bundleId
  let found ← w.bundle.transitions.mapM fun (key, t) => indexTransition path key t
  return (⟨bundleId, w.bundle.inputMap, found.map Prod.fst⟩, errors ++ found.flatMap Prod.snd)

end WitnessBundle

/-- Adds an operation under its recomputed id; of operations with one id the first stays. -/
def addOperation (ops : Table OpId Operation) (t : IndexedTransition) : Table OpId Operation :=
  match t.opId with
  | some id => ops.putNew id (.transition t.transition)
  | none => ops

namespace Consignment

/-- The recomputed identifiers of a consignment, and what could not be recomputed. The id of the
consignment is derived only when everything else is. -/
def index (c : Consignment) : Except Failure (ConsignmentIndex × List StrictError) := do
  let (schemaId, schemaErrors) ← recompute "schema" c.schema.schemaId
  let (contractId, contractErrors) ← recompute "" c.genesis.contractId
  let opened : Table OpId Operation :=
    match contractId with
    | some id => Table.empty.put (id.cast .operation) (.genesis c.genesis)
    | none => .empty
  let found ← c.bundles.zipIdx.mapM fun (w, i) => w.index i
  let bundles := found.map Prod.fst
  let operations := (bundles.flatMap IndexedBundle.transitions).foldl addOperation opened
  let errors := schemaErrors ++ contractErrors ++ found.flatMap Prod.snd
  let (consignmentId, ownErrors) ←
    if errors.isEmpty then recompute "" c.consignmentId else .ok (none, [])
  return (⟨schemaId, contractId, consignmentId, operations, bundles⟩, errors ++ ownErrors)

/-! ## The checks -/

/-- The check of the genesis and the schema. -/
def checkGenesis (c : Consignment) (ix : ConsignmentIndex) : Logged Report := do
  let reference : List StrictError :=
    match ix.schemaId with
    | some id =>
      if c.genesis.schemaId = id then []
      else [.of "genesis.schema_id" (.schemaReference c.genesis.schemaId.text id.text)]
    | none => []
  let schema ← c.schema.validate c.types
  let operation ← (Operation.genesis c.genesis).validate c.schema c.types "genesis"
  return ⟨reference⟩ ++ schema ++ operation

/-- The violations of one input of a transition. -/
def inputViolations (ix : ConsignmentIndex) (inputMap : Table Opout OpId) (bundle path : String)
    (opId : Option OpId) (input : Opout) : List StrictError :=
  let spent : List StrictError :=
    match ix.operations.get? input.op with
    | none => [.of (path ++ ".inputs") (.unknownOperation input.text input.op.text)]
    | some target =>
      match target.state.assignments.get? input.type with
      | some a =>
        if input.index < a.items.length then []
        else [.of (path ++ ".inputs") (.missingAssignment input.text)]
      | none => [.of (path ++ ".inputs") (.missingAssignment input.text)]
  let mapped : List StrictError :=
    match opId with
    | some id =>
      if inputMap.get? input = some id then []
      else [.of (bundle ++ ".input_map") (.unmappedInput input.text id.text)]
    | none => []
  spent ++ mapped

/-- The check of one transition of a bundle. -/
def checkTransition (c : Consignment) (ix : ConsignmentIndex) (inputMap : Table Opout OpId)
    (bundle : String) (t : IndexedTransition) : Logged Report := do
  let path := transitionPath bundle (t.opId.getD t.key)
  let carried : List StrictError :=
    match t.opId with
    | some id =>
      if t.key = id then []
      else [.of (transitionPath bundle t.key) (.carriedOperation t.key.text id.text)]
    | none => []
  let contract : List StrictError :=
    match ix.contractId with
    | some id =>
      if t.transition.contractId = id then []
      else [.of (path ++ ".contract_id")
        (.contractReference t.transition.contractId.text id.text)]
    | none => []
  let operation ← (Operation.transition t.transition).validate c.schema c.types path
  let inputs := t.transition.sortedInputs.flatMap (inputViolations ix inputMap bundle path t.opId)
  return ⟨carried ++ contract⟩ ++ operation ++ ⟨inputs⟩

/-- The check of the bundle at a position. -/
def checkBundle (c : Consignment) (ix : ConsignmentIndex) (b : IndexedBundle) (i : Nat) :
    Logged Report := do
  return .join (← b.transitions.mapM (c.checkTransition ix b.inputMap (bundlePath i)))

/-- The violations of the terminals. -/
def terminalViolations (c : Consignment) (ix : ConsignmentIndex) : List StrictError :=
  (c.terminals.sorted Id.le).flatMap fun (id, seals) =>
    let place := "terminals[" ++ id.hex ++ "]"
    match ix.bundle? id with
    | none => [.of place (.unknownBundle id.text)]
    | some b =>
      let known := b.secrets
      (seals.mergeSort Id.le).flatMap fun s =>
        if known.contains s then [] else [.of place (.unmatchedSeal s.text)]

/-- The violations of the validation scripts. -/
def scriptViolations (c : Consignment) : List StrictError :=
  let carried := c.libraryIds
  c.schema.libSites.flatMap fun (path, site) =>
    if carried.contains site.lib then []
    else [.of ("schema." ++ path) (.missingLibrary site.lib.text)]

/-- The check of a consignment together with its recomputed identifiers. -/
def checkIndexed (c : Consignment) : Logged (Report × ConsignmentIndex) := do
  let (ix, errors) ← c.index
  let genesis ← c.checkGenesis ix
  let bundles ← ix.bundles.zipIdx.mapM fun (b, i) => c.checkBundle ix b i
  let rest := c.terminalViolations ix ++ c.scriptViolations
  return (⟨errors⟩ ++ genesis ++ .join bundles ++ ⟨rest⟩, ix)

/-- The check of a consignment. -/
def check (c : Consignment) : Logged Report := do return (← c.checkIndexed).1

end Consignment

/-! ## Acceptance -/

/-- A consignment without violations, with its identifiers. -/
structure ValidConsignment where
  consignment : Consignment
  consignmentId : ConsignmentId
  contractId : ContractId
  schemaId : SchemaId
  bundleIds : List BundleId
  opIds : List OpId

namespace Consignment

/-- The accepted consignment of an index in which every identifier is known. -/
def accepted? (c : Consignment) (ix : ConsignmentIndex) : Option ValidConsignment := do
  return {
    consignment := c
    consignmentId := ← ix.consignmentId
    contractId := ← ix.contractId
    schemaId := ← ix.schemaId
    bundleIds := ix.bundles.filterMap IndexedBundle.bundleId
    opIds := ix.operations.keys }

/-- The text of an identifier that may be unknown. -/
def shownId {kind : IdKind} (id : Option (Id kind)) : Value :=
  .text ((id.map Id.text).getD "None")

/-- The event that completes the assembly of a consignment. -/
def assembled (success : Bool) (context : List (String × Value)) : Event :=
  .completing .graph "checker" "assemble" success context

/-- The events that follow the check of a consignment that is rejected. -/
def rejectionEvents (bundles : Value) (errors : List StrictError) (ix : ConsignmentIndex) :
    List Event :=
  let contract := shownId ix.contractId
  let count := Value.ofNat errors.length
  [{ Event.of .graph "checker" .warning "consignment rejected"
      [("contract_id", contract), ("violations", count)] with
      errorCode := .ofOption .text (errors.head?.map StrictError.code) },
   assembled false [("bundles", bundles), ("contract_id", contract), ("violations", count)]]

/-- The events that follow the check of a consignment that is accepted. -/
def acceptanceEvents (bundles : Value) (v : ValidConsignment) : List Event :=
  let contract := Value.text v.contractId.text
  let own := Value.text v.consignmentId.text
  [assembled true [("bundles", bundles), ("contract_id", contract), ("violations", .int 0),
     ("consignment_id", own)],
   .of .graph "checker" .info "consignment accepted"
     [("contract_id", contract), ("consignment_id", own)]]

/-- Accepts a consignment without violations; the events tell how it went. -/
def assemble (c : Consignment) : Logged ValidConsignment := do
  let bundles := Value.ofNat c.bundles.length
  let (report, ix) ← tryCatch c.checkIndexed fun failure => do
    Logged.log [assembled false [("bundles", bundles)]]
    throw failure
  match report.violations, c.accepted? ix with
  | [], some v =>
    Logged.log (acceptanceEvents bundles v)
    return v
  | errors, _ =>
    Logged.log (rejectionEvents bundles errors ix)
    throw (.rejected errors)

end Consignment

end StrictContract
