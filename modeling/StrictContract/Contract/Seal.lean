import StrictContract.Codec.Write
import StrictContract.Digest.Commitment

/-! # Seals — the transaction outputs that own state

A **seal** is defined over an output of a transaction. A seal that names no transaction stands for
an output of the transaction that witnesses the operation it occurs in. Concealing a seal replaces
it by a commitment to it; a random blinding keeps the commitment from being guessed. -/

namespace StrictContract

/-- An **outpoint**: an output of a transaction. -/
structure Outpoint where
  transaction : Txid
  vout : Value

namespace Outpoint

/-- The codec of outpoints. -/
def codec : Codec :=
  .struct "Outpoint" [("txid", .id .transaction), ("vout", .uint 4)] (.record "Outpoint") false

/-- The text of an outpoint. -/
def text (o : Outpoint) : String := o.transaction.text ++ ":" ++ o.vout.display

/-- Whether two outpoints are the same output. -/
def same (a b : Outpoint) : Bool := a.transaction == b.transaction && a.vout.same b.vout

end Outpoint

/-- A **seal**. -/
structure Seal where
  /-- The transaction; absent when it is the witness of the operation. -/
  transaction : Option Txid
  vout : Value
  blinding : Value

namespace Seal

/-- The codec of seals. -/
def codec : Codec :=
  .struct "RevealedSeal"
    [("txid", .option (.id .transaction)), ("vout", .uint 4), ("blinding", .uint 8)]
    (.record "RevealedSeal") false

/-- The record of a seal. -/
def toValue (s : Seal) : Value :=
  .record "RevealedSeal"
    [("txid", .ofOption (.id .transaction) s.transaction), ("vout", s.vout),
     ("blinding", s.blinding)]

/-- The seal that a record describes. -/
def ofValue? (v : Value) : Option Seal := do
  let transaction ←
    match ← v.part? "txid" with
    | .null => some none
    | x => (x.id? .transaction).map some
  return ⟨transaction, ← v.part? "vout", ← v.part? "blinding"⟩

/-- Whether two seals are equal. -/
def same (a b : Seal) : Bool :=
  a.transaction == b.transaction && a.vout.same b.vout && a.blinding.same b.blinding

/-- The commitment to a seal. -/
def conceal (s : Seal) : Except Failure SecretSeal := do
  return Id.ofContent .secretSeal (← codec.write s.toValue)

/-- The seal with the witness transaction filled in. -/
def withWitness (s : Seal) (witness : Txid) : Seal :=
  match s.transaction with
  | some _ => s
  | none => { s with transaction := some witness }

/-- The output that a seal is defined over. -/
def outpoint (s : Seal) : Except Failure Outpoint :=
  match s.transaction with
  | some transaction => .ok ⟨transaction, s.vout⟩
  | none => reject .noOutpoint

end Seal

end StrictContract
