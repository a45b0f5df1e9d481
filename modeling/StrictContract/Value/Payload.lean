import StrictContract.Digest.Commitment
import StrictContract.Value.Keys
import StrictContract.Value.Rendering

/-! # Payloads — committing to values

A commitment is made to a byte string under a domain tag. Where both come as values, each has to be
of its type; the payload is looked at first. -/

namespace StrictContract

/-- Commits to a value, which has to be a byte string, under a value, which has to be a tag. -/
def commitValue (payload tag : Value) : Except Failure Octets :=
  match payload.octets?, tag with
  | none, _ => .error (.strict (.of "payload" (.payloadType payload.typeName)))
  | some octets, .text tag => commit octets tag
  | some _, tag =>
    if tag.isKey then .error (.strict (.of "tag" (.invalidTag tag.literal))) else misuse .wrongType

end StrictContract
