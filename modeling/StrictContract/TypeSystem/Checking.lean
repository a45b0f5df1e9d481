import StrictContract.Codec.Read
import StrictContract.TypeSystem.Describing

/-! # Checking — bytes and values against a stored definition

A byte string is **checked** against a type by decoding it with the codec that the type's definition
describes. -/

namespace StrictContract.TypeSystem

/-- The value that a byte string encodes as the type with an id. -/
def check (ts : TypeSystem) (sid : SemId) (octets : Octets) : Except Failure Value := do
  (← ts.codecOf sid).decode octets

/-- The canonical bytes of a value as the type with an id. -/
def write (ts : TypeSystem) (sid : SemId) (v : Value) : Except Failure Octets := do
  (← ts.codecOf sid).write v

/-- The type system that a byte string encodes. -/
def decode (octets : Octets) : Except Failure TypeSystem := do
  match ofRecord? (← codec.decode octets) with
  | some ts => return ts
  | none => misuse .wrongType

end StrictContract.TypeSystem
