import StrictContract.Digest.Sha256
import StrictContract.Failure
import StrictContract.Text.Cut

/-! # Commitments — digests under a domain tag

A **commitment** to a payload is the digest of the payload behind the digest of a **domain tag**,
written twice so that it fills exactly one block. The same payload committed to under two tags
therefore gives two unrelated digests, which keeps identifiers of different kinds apart. -/

namespace StrictContract

/-- Whether a character may start a domain tag. -/
def isTagStart (c : Char) : Bool := c.isLower || c.isDigit

/-- Whether a character may follow the first one in a domain tag. -/
def isTagRest (c : Char) : Bool := isTagStart c || c == '.' || c == '-'

/-- Whether a text is a **domain tag**: at most 128 lower-case letters, digits, dots and dashes, of
which the first is neither dot nor dash. One final line feed is let through, and hashed. -/
def isDomainTag (tag : String) : Bool :=
  match Text.chomp tag.toList with
  | [] => false
  | first :: rest => isTagStart first && rest.all isTagRest && rest.length ≤ 127

/-- What is hashed when committing to a payload: the digest of the tag twice, then the payload. -/
def commitmentMessage (tag : String) (payload : Octets) : Octets :=
  let tagDigest := Sha256.digest tag.toUTF8.toList
  tagDigest ++ tagDigest ++ payload

/-- The 32-byte commitment to a payload under a domain tag. -/
def commitment (tag : String) (payload : Octets) : Octets :=
  Sha256.digest (commitmentMessage tag payload)

@[simp] theorem length_commitment (tag : String) (payload : Octets) :
    (commitment tag payload).length = 32 := rfl

/-- Commits to a payload under a text, which has to be a domain tag. -/
def commit (payload : Octets) (tag : String) : Except Failure Octets :=
  if isDomainTag tag then .ok (commitment tag payload)
  else .error (.strict (.of "tag" (.invalidTag (Text.quoted tag))))

namespace Id

/-- The identifier of content with the given canonical bytes. -/
def ofContent (kind : IdKind) (content : Octets) : Id kind :=
  ⟨commitment kind.tag content, length_commitment _ _⟩

end Id

/-- The id of a transaction: the double digest of its bytes. -/
def Txid.ofTransaction (raw : Octets) : Txid :=
  ⟨Sha256.doubleDigest raw, Sha256.length_doubleDigest raw⟩

end StrictContract
