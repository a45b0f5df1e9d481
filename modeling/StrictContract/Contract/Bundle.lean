import StrictContract.Contract.Operation

/-! # Bundles — the transitions that one transaction witnesses

A **bundle** maps every spent assignment to the transition that spends it and reveals some of these
transitions. Its id commits to the input map only, so two views of a bundle that reveal different
transitions have one id and can be **merged**. A **witness** is the transaction, by its id or in
full. -/

namespace StrictContract

/-! ## Witnesses -/

/-- A **witness** transaction. -/
inductive Witness where
  | txid (id : Txid)
  | tx (raw : Octets)
deriving DecidableEq

namespace Witness

/-- The size that a transaction may have. -/
def maxSize : Nat := 4000000

/-- The codec of witnesses. -/
def codec : Codec :=
  .union "PubWitness" [
    (0, "txid", .struct "WitnessTxid" [("txid", .id .transaction)] (.record "WitnessTxid") true),
    (1, "tx", .struct "WitnessTx" [("raw", .bytes { min := 1, max := maxSize } (some "Tx"))]
      (.record "WitnessTx") true)]

/-- The record of a witness. -/
def toValue : Witness → Value
  | txid id => .record "WitnessTxid" [("txid", .id .transaction id)]
  | tx raw => .record "WitnessTx" [("raw", .bytes raw)]

/-- The witness that a record describes. -/
def ofValue? (v : Value) : Option Witness := do
  match v with
  | .record "WitnessTxid" _ => return txid (← (← v.part? "txid").id? .transaction)
  | .record "WitnessTx" _ => return tx (← (← v.part? "raw").octets?)
  | _ => none

/-- The id of the transaction. -/
def witnessId : Witness → Txid
  | txid id => id
  | tx raw => .ofTransaction raw

/-- The transaction, if it is known in full. -/
def raw? : Witness → Option Octets
  | txid _ => none
  | tx raw => some raw

/-- Merges two views of one witness; the full transaction is kept if either has it. -/
def merge (a b : Witness) : Except Failure Witness :=
  if a.witnessId ≠ b.witnessId then .error (.unmergeable (.witness a.witnessId b.witnessId))
  else .ok (if a.raw?.isNone && b.raw?.isSome then b else a)

end Witness

/-! ## Bundles -/

/-- A **bundle**. -/
structure Bundle where
  inputMap : Table Opout OpId
  known : Table OpId Transition

namespace Bundle

/-- The codec of input maps. -/
def inputMapCodec : Codec :=
  .map Opout.codec (.id .operation) .shortNonempty .mapping (some "InputMap")

/-- The codec of bundles. -/
def codec : Codec :=
  .struct "TransitionBundle"
    [("input_map", inputMapCodec),
     ("known_transitions",
       .map (.id .operation) Transition.codec .shortNonempty .mapping none)]
    (.record "TransitionBundle") false

/-- The value of an input map. -/
def inputMapValue (b : Bundle) : Value :=
  .map (b.inputMap.entries.map fun (o, id) => (o.toValue, .id .operation id))

/-- The record of a bundle. -/
def toValue (b : Bundle) : Value :=
  .record "TransitionBundle"
    [("input_map", b.inputMapValue),
     ("known_transitions",
       .map (b.known.entries.map fun (id, t) => (.id .operation id, t.toValue)))]

/-- The bundle that a record describes. -/
def ofValue? (v : Value) : Option Bundle := do
  let inputs ← (← (← v.part? "input_map").entries?).mapM fun (k, x) =>
    return (← Opout.ofValue? k, ← x.id? .operation)
  let known ← (← (← v.part? "known_transitions").entries?).mapM fun (k, x) =>
    return (← k.id? .operation, ← Transition.ofValue? x)
  return ⟨.ofList inputs, .ofList known⟩

/-- Adds a transition and maps its inputs to it. -/
def reveal (b : Bundle) (t : Transition) : Except Failure Bundle := do
  let id ← t.opId
  return ⟨t.inputs.foldl (fun m o => m.put o id) b.inputMap, b.known.put id t⟩

/-- The bundle that reveals all its transitions. -/
def ofTransitions (ts : List Transition) : Except Failure Bundle :=
  ts.foldlM reveal ⟨.empty, .empty⟩

/-- The id of a bundle. -/
def bundleId (b : Bundle) : Except Failure BundleId := do
  return Id.ofContent .bundle (← inputMapCodec.write b.inputMapValue)

/-- The revealed transitions in ascending order of the ids they are carried under. -/
def transitions (b : Bundle) : List (OpId × Transition) := b.known.sorted Id.le

/-- Merges two views of one bundle: the transitions that either reveals. -/
def merge (a b : Bundle) : Except Failure Bundle := do
  if a.inputMap.same b.inputMap then
    return { a with known := b.known.entries.foldl (fun t (id, x) => t.putNew id x) a.known }
  .error (.unmergeable (.bundle (← a.bundleId) (← b.bundleId)))

end Bundle

/-- A bundle together with its witness. -/
structure WitnessBundle where
  witness : Witness
  bundle : Bundle

namespace WitnessBundle

/-- The codec of bundles with their witnesses. -/
def codec : Codec :=
  .struct "WitnessBundle" [("pub_witness", Witness.codec), ("bundle", Bundle.codec)]
    (.record "WitnessBundle") false

/-- The record of a bundle with its witness. -/
def toValue (w : WitnessBundle) : Value :=
  .record "WitnessBundle" [("pub_witness", w.witness.toValue), ("bundle", w.bundle.toValue)]

/-- The bundle with its witness that a record describes. -/
def ofValue? (v : Value) : Option WitnessBundle := do
  return ⟨← Witness.ofValue? (← v.part? "pub_witness"), ← Bundle.ofValue? (← v.part? "bundle")⟩

/-- The canonical bytes. -/
def encode (w : WitnessBundle) : Except Failure Octets := codec.write w.toValue

/-- The commitment to a bundle and its witness. -/
def discloseHash (w : WitnessBundle) : Except Failure DiscloseHash := do
  return Id.ofContent .disclosure (← w.encode)

end WitnessBundle

end StrictContract
