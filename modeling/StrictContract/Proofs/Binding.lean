import StrictContract.Digest.Commitment
import StrictContract.Proofs.Codec.Recovery

/-! # Binding — what an identifier says about its content

An identifier is a commitment to canonical bytes, and a digest can bind its content only as far as no
collision is known. So **binding** is stated with the collision as the only way out: content with the
same identifier is the same content, or its bytes **collide**, and the two byte strings are at hand. -/

namespace StrictContract

/-- Two contents **collide** under the tag of a kind: they are encoded as different byte strings to
which the same commitment belongs. -/
def Collide (kind : IdKind) (x y : Except Failure Octets) : Prop :=
  ∃ p q, x = .ok p ∧ y = .ok q ∧ p ≠ q ∧ commitment kind.tag p = commitment kind.tag q

/-- Contents with the same identifier are encoded as the same bytes, or they collide. -/
theorem eq_or_collide {kind : IdKind} {x y : Except Failure Octets} {id : Id kind}
    (hx : (do return Id.ofContent kind (← x)) = Except.ok id)
    (hy : (do return Id.ofContent kind (← y)) = Except.ok id) :
    (∃ p, x = .ok p ∧ y = .ok p) ∨ Collide kind x y := by
  obtain ⟨p, hp, hidp⟩ := bind_eq_ok.1 hx
  obtain ⟨q, hq, hidq⟩ := bind_eq_ok.1 hy
  have hcommit : Id.ofContent kind p = Id.ofContent kind q :=
    (pure_eq_ok.1 hidp).trans (pure_eq_ok.1 hidq).symm
  by_cases hpq : p = q
  · subst hpq
    exact .inl ⟨p, hp, hq⟩
  · exact .inr ⟨p, q, hp, hq, hpq, congrArg Id.octets hcommit⟩

namespace Codec

variable {c : Codec} {v w : Value}

/-- Recovered values that are written as the same bytes are alike. -/
theorem Recovers.alike (hv : Recovers c v) (hw : Recovers c w) {p : Octets}
    (hvp : c.write v = .ok p) (hwp : c.write w = .ok p) : v.Alike w := by
  obtain ⟨v', hv', halikev⟩ := hv p hvp
  obtain ⟨w', hw', halikew⟩ := hw p hwp
  -- the bytes are read as one value, to which both are alike
  obtain ⟨rfl, -⟩ := hv'.unique hw' (s := []) rfl
  exact halikev.trans halikew.symm

/-- Recovered values with the same identifier are alike, or their bytes collide. -/
theorem Recovers.alike_or_collide (hv : Recovers c v) (hw : Recovers c w) {kind : IdKind}
    {id : Id kind} (hvid : (do return Id.ofContent kind (← c.write v)) = Except.ok id)
    (hwid : (do return Id.ofContent kind (← c.write w)) = Except.ok id) :
    v.Alike w ∨ Collide kind (c.write v) (c.write w) := by
  rcases eq_or_collide hvid hwid with ⟨p, hvp, hwp⟩ | hcollide
  · exact .inl (hv.alike hw hvp hwp)
  · exact .inr hcollide

end Codec

end StrictContract
