import StrictContract.Contract.Seal
import StrictContract.Table

/-! # Operations — the genesis of a contract and its state transitions

An **operation** sets metadata, global state and **assignments** of owned state to seals. A genesis
opens a contract; a transition spends assignments of earlier operations, its **inputs**. The id of
an operation commits to its encoding as a member of the union of both, so no genesis shares an id
with a transition. The id of a contract is that of its genesis. -/

namespace StrictContract

/-! ## References to assignments -/

/-- An **opout**: an assignment of an operation, by its type and its position. -/
structure Opout where
  op : OpId
  type : Int
  index : Int
deriving DecidableEq

namespace Opout

/-- The codec of opouts. -/
def codec : Codec :=
  .struct "Opout" [("op", .id .operation), ("ty", .uint 2), ("no", .uint 2)] (.record "Opout") false

/-- The record of an opout. -/
def toValue (o : Opout) : Value :=
  .record "Opout" [("op", .id .operation o.op), ("ty", .int o.type), ("no", .int o.index)]

/-- The opout that a record describes. -/
def ofValue? (v : Value) : Option Opout := do
  return ⟨← (← v.part? "op").id? .operation, ← (← v.part? "ty").int?, ← (← v.part? "no").int?⟩

/-- The text of an opout. -/
def text (o : Opout) : String := o.op.text ++ "/" ++ toString o.type ++ "/" ++ toString o.index

/-- The order of opouts: by operation, type and position. -/
def le (a b : Opout) : Bool :=
  if a.op ≠ b.op then a.op.le b.op
  else if a.type ≠ b.type then decide (a.type ≤ b.type)
  else decide (a.index ≤ b.index)

end Opout

/-! ## Assignments -/

/-- The kinds of owned state. -/
inductive StateKind where
  /-- A right without a value. -/
  | declarative
  /-- An amount. -/
  | fungible
  /-- A value of a declared type. -/
  | structured
deriving DecidableEq

namespace StateKind

/-- Every kind of state. -/
def all : List StateKind := [declarative, fungible, structured]

/-- The name of a kind. -/
def name : StateKind → String
  | declarative => "Declarative"
  | fungible => "Fungible"
  | structured => "Structured"

/-- The name of assignments of a kind as a variant. -/
def variant : StateKind → String
  | declarative => "declarative"
  | fungible => "fungible"
  | structured => "structured"

/-- The name that codecs of single assignments of a kind carry. -/
def assignmentName : StateKind → String
  | declarative => "Void"
  | fungible => "Fungible"
  | structured => "Structured"

/-- The codec of state of a kind. -/
def codec : StateKind → Codec
  | declarative => .unit
  | fungible => .uint 8
  | structured => .bytes .short (some "DataState")

end StateKind

/-- An **assignment** of state to a seal, which is revealed or known by its commitment only. -/
inductive Assignment where
  | revealed (definition : Seal) (state : Value)
  | confidential (secret : SecretSeal) (state : Value)

namespace Assignment

/-- The codec of assignments of a kind of state. -/
def codec (kind : StateKind) : Codec :=
  let k := kind.assignmentName
  .union ("Assign" ++ k) [
    (0, "confidentialSeal", .struct ("ConfidentialSeal" ++ k)
      [("seal", .id .secretSeal), ("state", kind.codec)] (.record "ConfidentialSeal") false),
    (1, "revealed", .struct ("Revealed" ++ k)
      [("seal", Seal.codec), ("state", kind.codec)] (.record "Revealed") false)]

/-- The assigned state. -/
def state : Assignment → Value
  | revealed _ state => state
  | confidential _ state => state

/-- The record of an assignment. -/
def toValue : Assignment → Value
  | revealed definition state =>
    .record "Revealed" [("seal", definition.toValue), ("state", state)]
  | confidential secret state =>
    .record "ConfidentialSeal" [("seal", .id .secretSeal secret), ("state", state)]

/-- The assignment that a record describes. -/
def ofValue? (v : Value) : Option Assignment := do
  match v with
  | .record "Revealed" _ => return revealed (← Seal.ofValue? (← v.part? "seal")) (← v.part? "state")
  | .record "ConfidentialSeal" _ =>
    return confidential (← (← v.part? "seal").id? .secretSeal) (← v.part? "state")
  | _ => none

/-- The assignment with its seal concealed. -/
def conceal : Assignment → Except Failure Assignment
  | revealed definition state => do return confidential (← definition.conceal) state
  | confidential secret state => .ok (confidential secret state)

/-- The commitment to a seal that is not revealed. -/
def secret? : Assignment → Option SecretSeal
  | confidential secret _ => some secret
  | revealed _ _ => none

/-- The name of the form of an assignment: the seal is concealed or revealed, never the state. -/
def form (a : Assignment) : String := if a.secret?.isSome then "ConfidentialSeal" else "Revealed"

end Assignment

/-- The **assignments** of one type: a list of one kind of state. -/
structure Assignments where
  kind : StateKind
  items : List Assignment

namespace Assignments

/-- The name of the record of assignments of a kind. -/
def recordName (kind : StateKind) : String := kind.name ++ "Assigns"

/-- The codec of the assignments of one type. -/
def codec : Codec :=
  .union "TypedAssigns" <| [(0, StateKind.declarative), (1, .fungible), (2, .structured)].map
    fun (tag, kind) =>
      (tag, kind.variant, .struct (recordName kind)
        [("items", .list (Assignment.codec kind) .shortNonempty none)]
        (.record (recordName kind)) true)

/-- The record of assignments. -/
def toValue (a : Assignments) : Value :=
  .record (recordName a.kind) [("items", .tuple (a.items.map Assignment.toValue))]

/-- The assignments that a record describes. -/
def ofValue? (v : Value) : Option Assignments := do
  let kind ← StateKind.all.find? fun k => recordName k == v.typeName
  return ⟨kind, ← (← (← v.part? "items").sequence?).mapM Assignment.ofValue?⟩

/-- The assignments with their positions. -/
def positioned (a : Assignments) : List (Nat × Assignment) :=
  a.items.zipIdx.map fun (x, i) => (i, x)

/-- The commitments to seals that are not revealed. -/
def secrets (a : Assignments) : List SecretSeal := a.items.filterMap Assignment.secret?

/-- The positions of the items whose seal is concealed, or of those whose seal is revealed. -/
def indices (a : Assignments) (concealed : Bool) : List Nat :=
  (a.positioned.filter fun (_, x) => x.secret?.isSome == concealed).map Prod.fst

end Assignments

/-! ## State of an operation -/

/-- Tables are encoded as maps from type numbers. -/
def Table.toValue {α : Type} (f : α → Value) (t : Table Int α) : Value :=
  .map (t.entries.map fun (k, a) => (.int k, f a))

/-- The table that a mapping from numbers describes. -/
def Table.ofValue? {α : Type} (f : Value → Option α) (v : Value) : Option (Table Int α) := do
  return .ofList (← (← v.entries?).mapM fun (k, x) => return (← k.int?, ← f x))

/-- What every operation sets. -/
structure OperationState where
  metadata : Table Int Value
  globals : Table Int (List Value)
  assignments : Table Int Assignments

namespace OperationState

/-- The codec of metadata. -/
def metadataCodec : Codec :=
  .map (.uint 2) (.bytes .short (some "MetaValue")) .tiny .mapping
    (some "Metadata")

/-- The codec of global state. -/
def globalsCodec : Codec :=
  .map (.uint 2)
    (.list (.bytes .short (some "DataState")) .shortNonempty (some "GlobalValues"))
    .tiny .mapping (some "GlobalState")

/-- The codec of assignments by type. -/
def assignmentsCodec : Codec :=
  .map (.uint 2) Assignments.codec .tiny .mapping (some "Assignments")

/-- The value of metadata. -/
def metadataValue (s : OperationState) : Value := s.metadata.toValue id

/-- The value of global state. -/
def globalsValue (s : OperationState) : Value := s.globals.toValue .tuple

/-- The value of the assignments by type. -/
def assignmentsValue (s : OperationState) : Value := s.assignments.toValue Assignments.toValue

/-- The state that the fields of a record describe. -/
def ofValue? (v : Value) : Option OperationState := do
  return {
    metadata := ← Table.ofValue? some (← v.part? "metadata")
    globals := ← Table.ofValue? Value.sequence? (← v.part? "globals")
    assignments := ← Table.ofValue? Assignments.ofValue? (← v.part? "assignments") }

/-- The assignments with their types and positions, types in ascending order. -/
def outputs (s : OperationState) : List (Int × Nat × Assignment) :=
  (s.assignments.sorted intLe).flatMap fun (type, a) =>
    a.positioned.map fun (i, x) => (type, i, x)

end OperationState

/-! ## Genesis and transitions -/

/-- The networks that a contract can live on. -/
def chainNet : Enumeration where
  name := "ChainNet"
  names := [("BitcoinMainnet", 0), ("BitcoinTestnet3", 1), ("BitcoinTestnet4", 2),
    ("BitcoinSignet", 3), ("BitcoinRegtest", 4), ("LiquidMainnet", 5), ("LiquidTestnet", 6)]

/-- The ways in which a transaction can close seals. -/
def sealClosingStrategy : Enumeration where
  name := "SealClosingStrategy"
  names := [("FirstOpretOrTapret", 0)]

/-- A **genesis**. -/
structure Genesis where
  schemaId : SchemaId
  timestamp : Value
  issuer : Value
  chainNet : Value
  closingStrategy : Value
  state : OperationState

namespace Genesis

/-- The codec of issuers. -/
def issuerCodec : Codec :=
  .ascii .printable .printable { min := 1, max := 4096 } (some "Identity")

/-- The codec of geneses. -/
def codec : Codec :=
  .struct "Genesis"
    [("schema_id", .id .schema), ("timestamp", .sint 8), ("issuer", issuerCodec),
     ("chain_net", .enumeration StrictContract.chainNet),
     ("seal_closing_strategy", .enumeration sealClosingStrategy),
     ("metadata", OperationState.metadataCodec), ("globals", OperationState.globalsCodec),
     ("assignments", OperationState.assignmentsCodec)]
    (.record "Genesis") false

/-- The record of a genesis. -/
def toValue (g : Genesis) : Value :=
  .record "Genesis"
    [("schema_id", .id .schema g.schemaId), ("timestamp", g.timestamp), ("issuer", g.issuer),
     ("chain_net", g.chainNet), ("seal_closing_strategy", g.closingStrategy),
     ("metadata", g.state.metadataValue), ("globals", g.state.globalsValue),
     ("assignments", g.state.assignmentsValue)]

/-- The genesis that a record describes. -/
def ofValue? (v : Value) : Option Genesis := do
  return {
    schemaId := ← (← v.part? "schema_id").id? .schema
    timestamp := ← v.part? "timestamp"
    issuer := ← v.part? "issuer"
    chainNet := ← v.part? "chain_net"
    closingStrategy := ← v.part? "seal_closing_strategy"
    state := ← OperationState.ofValue? v }

end Genesis

/-- A **transition**. -/
structure Transition where
  contractId : ContractId
  type : Value
  nonce : Value
  /-- The assignments that are spent; none is listed twice. -/
  inputs : List Opout
  state : OperationState

namespace Transition

/-- The codec of transitions. -/
def codec : Codec :=
  .struct "Transition"
    [("contract_id", .id .contract), ("transition_type", .uint 2), ("nonce", .uint 8),
     ("metadata", OperationState.metadataCodec), ("globals", OperationState.globalsCodec),
     ("inputs", .set Opout.codec .shortNonempty .members (some "Inputs")),
     ("assignments", OperationState.assignmentsCodec)]
    (.record "Transition") false

/-- The record of a transition. -/
def toValue (t : Transition) : Value :=
  .record "Transition"
    [("contract_id", .id .contract t.contractId), ("transition_type", t.type), ("nonce", t.nonce),
     ("metadata", t.state.metadataValue), ("globals", t.state.globalsValue),
     ("inputs", .set (t.inputs.map Opout.toValue)), ("assignments", t.state.assignmentsValue)]

/-- The transition that a record describes. -/
def ofValue? (v : Value) : Option Transition := do
  return {
    contractId := ← (← v.part? "contract_id").id? .contract
    type := ← v.part? "transition_type"
    nonce := ← v.part? "nonce"
    inputs := ← (← (← v.part? "inputs").sequence?).mapM Opout.ofValue?
    state := ← OperationState.ofValue? v }

/-- The inputs in ascending order. -/
def sortedInputs (t : Transition) : List Opout := t.inputs.mergeSort Opout.le

end Transition

/-- An **operation**. -/
inductive Operation where
  | genesis (g : Genesis)
  | transition (t : Transition)

namespace Operation

/-- The codec of operations. -/
def codec : Codec :=
  .union "Operation" [(0, "genesis", Genesis.codec), (1, "transition", Transition.codec)]

/-- What an operation sets. -/
def state : Operation → OperationState
  | genesis g => g.state
  | transition t => t.state

/-- The record of an operation. -/
def toValue : Operation → Value
  | genesis g => g.toValue
  | transition t => t.toValue

/-- The inputs of an operation; a genesis has none. -/
def inputs : Operation → List Opout
  | genesis _ => []
  | transition t => t.inputs

/-- The canonical bytes of an operation. -/
def encode (o : Operation) : Except Failure Octets := codec.write o.toValue

/-- The id of an operation. -/
def opId (o : Operation) : Except Failure OpId := do return Id.ofContent .operation (← o.encode)

end Operation

/-- The id of a transition. -/
def Transition.opId (t : Transition) : Except Failure OpId := (Operation.transition t).opId

/-- The id of the contract that a genesis opens. -/
def Genesis.contractId (g : Genesis) : Except Failure ContractId := do
  return (← (Operation.genesis g).opId).cast .contract

end StrictContract
