import StrictContract.Digest.Commitment
import StrictContract.Proofs.Outcome

/-! # Separation — when two commitments are the same

What is hashed for a commitment begins with the digest of its tag, twice, and digests have one length.
So it determines the payload and the digest of the tag: commitments that coincide are of one payload
under one tag, or a **collision** is at hand, of the tags or of what is hashed. -/

namespace StrictContract

/-! ## The bytes of texts -/

/-- The bytes from a position on come behind those that are collected. -/
theorem toList_loop (bytes : ByteArray) (i : Nat) (before : List UInt8) :
    ByteArray.toList.loop bytes i before = before.reverse ++ bytes.data.toList.drop i := by
  fun_induction ByteArray.toList.loop bytes i before with
  | case1 i before h ih =>
    have hi : i < bytes.data.toList.length := h
    rw [ih, List.drop_eq_getElem_cons hi, List.reverse_cons, List.append_assoc]
    simp [ByteArray.get!, h]
  | case2 i before h =>
    have hi : bytes.data.toList.length ≤ i := Nat.le_of_not_lt h
    rw [List.drop_eq_nil_of_le hi, List.append_nil]

/-- Texts with the same bytes are the same. -/
theorem eq_of_toUTF8 {s t : String} (h : s.toUTF8.toList = t.toUTF8.toList) : s = t := by
  have hdata : ∀ bytes : ByteArray, bytes.toList = bytes.data.toList := fun bytes =>
    toList_loop bytes 0 []
  rw [hdata, hdata] at h
  exact String.toByteArray_inj.1 (ByteArray.ext (Array.toList_inj.1 h))

/-! ## Commitments -/

/-- Two messages **collide** when they differ and have the same digest. -/
def Sha256.Collide (m n : Octets) : Prop := m ≠ n ∧ digest m = digest n

/-- What is committed to is committed to under a domain tag. -/
theorem commit_eq_ok {p x : Octets} {s : String} :
    commit p s = .ok x ↔ isDomainTag s = true ∧ commitment s p = x := by
  unfold commit
  split
  · rename_i h
    simp [h]
  · rename_i h
    simp [h]

/-- What is hashed determines the payload and the digest of the tag. -/
theorem commitmentMessage_eq_iff {p q : Octets} {s t : String} :
    commitmentMessage s p = commitmentMessage t q ↔
      Sha256.digest s.toUTF8.toList = Sha256.digest t.toUTF8.toList ∧ p = q := by
  unfold commitmentMessage
  constructor
  · intro h
    -- digests have one length, so what is hashed is cut at the same places
    obtain ⟨htags, hpayload⟩ := List.append_inj h (by simp)
    exact ⟨(List.append_inj htags (by simp)).1, hpayload⟩
  · rintro ⟨htag, rfl⟩
    rw [htag]

/-- Commitments coincide for one payload under one tag or under tags that collide, and where what is
hashed collides. -/
theorem commitment_eq_iff {p q : Octets} {s t : String} :
    commitment s p = commitment t q ↔ (p = q ∧ s = t) ∨
      (p = q ∧ Sha256.Collide s.toUTF8.toList t.toUTF8.toList) ∨
      Sha256.Collide (commitmentMessage s p) (commitmentMessage t q) := by
  constructor
  · intro h
    by_cases hmessage : commitmentMessage s p = commitmentMessage t q
    · obtain ⟨htag, hpayload⟩ := commitmentMessage_eq_iff.1 hmessage
      by_cases hst : s = t
      · exact .inl ⟨hpayload, hst⟩
      · exact .inr (.inl ⟨hpayload, fun hbytes => hst (eq_of_toUTF8 hbytes), htag⟩)
    · exact .inr (.inr ⟨hmessage, h⟩)
  · rintro (⟨rfl, rfl⟩ | ⟨rfl, -, htag⟩ | ⟨-, h⟩)
    · rfl
    · exact congrArg Sha256.digest (commitmentMessage_eq_iff.2 ⟨htag, rfl⟩)
    · exact h

/-- Two commitments under domain tags are the same if and only if they are to one payload under one
tag, or to one payload under two tags that collide, or if the two messages collide in which a payload
follows the digest of its tag, written twice. -/
theorem commit_eq_iff {p q x y : Octets} {s t : String} (hs : commit p s = .ok x)
    (ht : commit q t = .ok y) :
    x = y ↔ (p = q ∧ s = t) ∨
      (p = q ∧ Sha256.Collide s.toUTF8.toList t.toUTF8.toList) ∨
      Sha256.Collide
        (Sha256.digest s.toUTF8.toList ++ Sha256.digest s.toUTF8.toList ++ p)
        (Sha256.digest t.toUTF8.toList ++ Sha256.digest t.toUTF8.toList ++ q) := by
  obtain ⟨-, rfl⟩ := commit_eq_ok.1 hs
  obtain ⟨-, rfl⟩ := commit_eq_ok.1 ht
  exact commitment_eq_iff

/-- One payload under two tags, of which one ends with a line feed: its commitments are the same only
if there is a collision. -/
theorem commit_eq_iff_tags : ∃ x y, commit [1, 2] "rgbcore.semid.v1" = .ok x ∧
    commit [1, 2] "rgbcore.semid.v1\n" = .ok y ∧
    (x = y → Sha256.Collide "rgbcore.semid.v1".toUTF8.toList "rgbcore.semid.v1\n".toUTF8.toList ∨
      Sha256.Collide
        (Sha256.digest "rgbcore.semid.v1".toUTF8.toList ++
          Sha256.digest "rgbcore.semid.v1".toUTF8.toList ++ [1, 2])
        (Sha256.digest "rgbcore.semid.v1\n".toUTF8.toList ++
          Sha256.digest "rgbcore.semid.v1\n".toUTF8.toList ++ [1, 2])) := by
  have hs : commit [1, 2] "rgbcore.semid.v1" = .ok _ := commit_eq_ok.2 ⟨by decide, rfl⟩
  have ht : commit [1, 2] "rgbcore.semid.v1\n" = .ok _ := commit_eq_ok.2 ⟨by decide, rfl⟩
  refine ⟨_, _, hs, ht, fun h => ?_⟩
  rcases (commit_eq_iff hs ht).1 h with ⟨-, htags⟩ | ⟨-, hcollide⟩ | hcollide
  · exact absurd htags (by decide)
  · exact .inl hcollide
  · exact .inr hcollide

/-! ## Kinds of identifiers -/

/-- The tag of every kind that has one is a domain tag, and two kinds share a tag only if one is that of
contracts and the other that of operations. -/
theorem IdKind.tags_apart (k l : IdKind) (hk : k.tag ≠ "") :
    isDomainTag k.tag = true ∧
      (k.tag = l.tag ↔ k = l ∨ (k = .operation ∧ l = .contract) ∨ (k = .contract ∧ l = .operation)) := by
  cases k with
  | plain | transaction => exact absurd rfl hk
  | _ => cases l <;> decide

/-- Contents of kinds with different tags get identifiers of different bytes, unless there is a
collision of the tags or of what is hashed. -/
theorem Id.collide_of_octets_eq {k l : IdKind} (hkinds : k.tag ≠ l.tag) {p q : Octets}
    (h : (ofContent k p).octets = (ofContent l q).octets) :
    Sha256.Collide k.tag.toUTF8.toList l.tag.toUTF8.toList ∨
      Sha256.Collide (commitmentMessage k.tag p) (commitmentMessage l.tag q) := by
  rcases commitment_eq_iff.1 h with ⟨-, htag⟩ | ⟨-, hcollide⟩ | hcollide
  · exact absurd htag hkinds
  · exact .inl hcollide
  · exact .inr hcollide

end StrictContract
