import StrictContract.Contract.Check

/-! # Contract state — what is owned, by replaying accepted consignments

The **state** of a contract holds the revealed assignments that are not spent, the references that
are spent, and every item of global state with its limit. Consignments of one contract are
**applied** one after another; what is known already stays. -/

namespace StrictContract

/-- An **output**: a revealed assignment that is not spent. -/
structure Output where
  opout : Opout
  definition : Seal
  state : Value
  kind : StateKind
  witness : Option Txid
  bundleId : Option BundleId

/-- An item of global state and the operation that set it. -/
structure GlobalItem where
  opId : OpId
  index : Nat
  state : Value
  witness : Option Txid

/-- The **state** of a contract. -/
structure ContractState where
  contractId : ContractId
  outputs : Table Opout Output
  spent : List Opout
  /-- The items of every known global type, oldest first. -/
  globals : Table Int (List GlobalItem)
  /-- The number of items of a global type that count. -/
  limits : Table Int Int
  /-- The concealed seals and what they own. -/
  concealed : List (SecretSeal × Opout)
  /-- The transaction outputs and what they own, spent or not. -/
  located : List (Outpoint × Opout)

namespace ContractState

/-- The state of a contract of which nothing is known. -/
def empty (contractId : ContractId) : ContractState :=
  ⟨contractId, .empty, [], .empty, .empty, [], []⟩

/-- The number of unspent outputs. -/
def size (s : ContractState) : Nat := s.outputs.size

/-! ## Applying -/

/-- Where an operation stands: its id, and the witness and the bundle of a transition. -/
structure Origin where
  opId : OpId
  witness : Option Txid
  bundleId : Option BundleId

/-- Adds an item of global state unless it is known. -/
def addItem (known : List GlobalItem) (item : GlobalItem) : List GlobalItem :=
  if known.any fun x => x.opId == item.opId && x.index == item.index then known
  else known ++ [item]

/-- Adds the items of one global type. -/
def addGlobal (o : Origin) (s : ContractState) (type : Int) (items : List Value) : ContractState :=
  let known := (s.globals.get? type).getD []
  let all := items.zipIdx.foldl (fun acc (x, i) => addItem acc ⟨o.opId, i, x, o.witness⟩) known
  { s with globals := s.globals.put type all }

/-- Adds an assignment: a concealed one by its commitment, a revealed one by its place and, unless
it is spent, as an output. -/
def addAssignment (o : Origin) (kind : StateKind) (s : ContractState) (opout : Opout)
    (a : Assignment) : ContractState :=
  match a with
  | .confidential secret _ =>
    if s.concealed.contains (secret, opout) then s
    else { s with concealed := s.concealed ++ [(secret, opout)] }
  | .revealed definition state =>
    let bound := o.witness.elim definition definition.withWitness
    let located :=
      match bound.transaction with
      | some transaction => s.located ++ [(⟨transaction, bound.vout⟩, opout)]
      | none => s.located
    let outputs :=
      if s.spent.contains opout then s.outputs
      else s.outputs.put opout ⟨opout, bound, state, kind, o.witness, o.bundleId⟩
    { s with located, outputs }

/-- Adds what an operation sets. -/
def addOperation (s : ContractState) (o : Origin) (state : OperationState) : ContractState :=
  let withGlobals :=
    (state.globals.sorted intLe).foldl (fun s (type, items) => addGlobal o s type items) s
  (state.assignments.sorted intLe).foldl (fun s (type, a) =>
    a.positioned.foldl (fun s (i, x) => addAssignment o a.kind s ⟨o.opId, type, i⟩ x) s) withGlobals

/-- Marks assignments as spent. -/
def spend (s : ContractState) (inputs : List Opout) : ContractState :=
  { s with spent := distinct (s.spent ++ inputs) }

/-- Adds the transitions of a bundle, each after its inputs are spent. -/
def addBundle (s : ContractState) (w : WitnessBundle) : Except Failure ContractState := do
  let bundleId ← w.bundle.bundleId
  return w.bundle.transitions.foldl (fun s (id, t) =>
    (s.spend t.inputs).addOperation ⟨id, some w.witness.witnessId, some bundleId⟩ t.state) s

/-- Takes over the limit of a global type, which is known from now on. -/
def addLimit (s : ContractState) (type : Int) (d : GlobalDetails) : ContractState :=
  { s with limits := s.limits.put type d.maxItems, globals := s.globals.putNew type [] }

/-- The outputs that are not spent. -/
def prune (s : ContractState) : ContractState :=
  { s with outputs := s.spent.foldl Table.erase s.outputs }

/-- The event that tells of an update. -/
def updated (s : ContractState) : Event :=
  .of .state "state" .debug "contract state updated"
    [("contract_id", .text s.contractId.text), ("outputs", .ofNat s.size),
     ("terminals", .ofNat (distinct (s.concealed.map Prod.fst)).length)]

/-- Applies an accepted consignment of the contract. -/
def apply (s : ContractState) (v : ValidConsignment) : Except Failure ContractState := do
  if v.contractId ≠ s.contractId then
    reject (.foreignConsignment v.contractId.text s.contractId.text)
  let limited :=
    v.consignment.schema.globalTypes.entries.foldl (fun s (type, d) => s.addLimit type d) s
  let opened :=
    limited.addOperation ⟨v.contractId.cast .operation, none, none⟩ v.consignment.genesis.state
  let replayed ← v.consignment.bundles.foldlM addBundle opened
  return replayed.prune

/-- Applies an accepted consignment of the contract, and gives by how much the number of outputs
changes. -/
def applyCounting (s : ContractState) (v : ValidConsignment) :
    Except Failure (Int × ContractState) := do
  let t ← s.apply v
  return ((t.size : Int) - s.size, t)

/-- The state after one accepted consignment. -/
def ofConsignment (v : ValidConsignment) : Except Failure ContractState :=
  (empty v.contractId).apply v

/-! ## Queries -/

/-- The items of a global type, newest first, as many of them as count. -/
def globalState (s : ContractState) (type : Int) : Except Failure (List GlobalItem) :=
  match s.globals.get? type with
  | none => misuse (.missingKey s!"global state type {type} is not declared by the contract schema")
  | some items =>
    let newest := items.reverse
    .ok <| match s.limits.get? type with
      | none => newest
      | some limit => newest.take limit.toNat

/-- The outputs of a kind in order, possibly only those of a transaction output or of a type. -/
def select (s : ContractState) (kind : StateKind) (outpoint : Option Outpoint) (type : Option Int) :
    List Output :=
  ((s.outputs.sorted Opout.le).map Prod.snd).filter fun o =>
    o.kind == kind
    && type.all (· == o.opout.type)
    && outpoint.all fun p =>
      match o.definition.transaction with
      | some transaction => Outpoint.same ⟨transaction, o.definition.vout⟩ p
      | none => false

/-- The sum of the unspent amounts of a type. -/
def balance (s : ContractState) (type : Int) : Int :=
  (s.select .fungible none (some type)).foldl (fun sum o => sum + o.state.number?.getD 0) 0

/-- Whether an assignment is spent. -/
def isSpent (s : ContractState) (o : Opout) : Bool := s.spent.contains o

/-- What concealed seals own. -/
def ownedByTerminals (s : ContractState) (seals : List SecretSeal) : List Opout :=
  distinct ((s.concealed.filter fun (secret, _) => seals.contains secret).map Prod.snd)

/-- What transaction outputs own, spent or not. -/
def ownedByOutpoints (s : ContractState) (outpoints : List Outpoint) : List Opout :=
  distinct ((s.located.filter fun (p, _) => outpoints.any p.same).map Prod.snd)

end ContractState

end StrictContract
