import StrictContract.Proofs.Binding
import StrictContract.Proofs.Contract.Consignment

/-! # Binding of records — identifiers of contract records determine the records

Schemas, operations, input maps of bundles, seals, bundles with their witnesses and consignments are
identified by commitments to their canonical bytes. The bytes of each kind are recovered as a record
alike to the one that was written, so records of one kind with the same identifier are alike or their
bytes collide under the tag of the kind. Geneses and transitions share a tag, but their bytes begin
with different bytes, so they never share an identifier without a collision. -/

namespace StrictContract

open Codec

/-! ## Operations -/

namespace Operation

/-- Operations are recovered. -/
theorem recovers_codec (o : Operation) : Recovers codec o.toValue := by
  cases o with
  | genesis g =>
    refine recovers_union recordVariants ?_
    simp only [variants, codec, List.forall_mem_cons, recordType?, Genesis.codec, Transition.codec,
      Option.some.injEq, String.reduceEq, false_implies, true_implies, List.not_mem_nil,
      implies_true, and_true]
    exact g.recovers_codec
  | transition t =>
    refine recovers_union recordVariants ?_
    simp only [variants, codec, List.forall_mem_cons, recordType?, Genesis.codec, Transition.codec,
      Option.some.injEq, String.reduceEq, false_implies, true_implies, true_and, List.not_mem_nil,
      implies_true, and_true]
    exact t.recovers_codec

/-- A genesis and a transition with the same identifier collide: their bytes begin differently. -/
theorem collide_of_opId {g : Genesis} {t : Transition} {id : OpId}
    (hg : (genesis g).opId = .ok id) (ht : (transition t).opId = .ok id) :
    Collide .operation (genesis g).encode (transition t).encode := by
  rcases eq_or_collide hg ht with ⟨p, hgp, htp⟩ | hcollide
  · obtain ⟨q, -, rfl⟩ := encode_genesis_eq_ok.1 hgp
    obtain ⟨r, -, hqr⟩ := encode_transition_eq_ok.1 htp
    cases hqr
  · exact hcollide

end Operation

/-! ## All kinds of records -/

/-- **Identifiers determine their records.** Two schemas, two operations, two bundles, two seals, two
bundles with their witnesses, or two consignments with the same identifier are alike, where bundles
have the same input maps, or the bytes of the two are a collision under the tag of their kind. A
genesis and a transition have the same identifier only if their bytes are a collision. Schemas are
regular, and type systems reachable. -/
theorem identifiers_determine_records :
    (∀ (s t : Schema) (id : SchemaId), s.Regular → t.Regular → s.schemaId = .ok id →
      t.schemaId = .ok id → s.toValue.Alike t.toValue ∨ Collide .schema s.encode t.encode) ∧
    (∀ (a b : Operation) (id : OpId), a.opId = .ok id → b.opId = .ok id →
      a.toValue.Alike b.toValue ∨ Collide .operation a.encode b.encode) ∧
    (∀ (g : Genesis) (t : Transition) (id : OpId), (Operation.genesis g).opId = .ok id →
      t.opId = .ok id →
      Collide .operation (Operation.genesis g).encode (Operation.transition t).encode) ∧
    (∀ (a b : Bundle) (id : BundleId), a.bundleId = .ok id → b.bundleId = .ok id →
      a.inputMap.entries.Perm b.inputMap.entries ∨
        Collide .bundle (Bundle.inputMapCodec.write a.inputMapValue)
          (Bundle.inputMapCodec.write b.inputMapValue)) ∧
    (∀ (a b : Seal) (id : SecretSeal), a.conceal = .ok id → b.conceal = .ok id →
      a.toValue.Alike b.toValue ∨
        Collide .secretSeal (Seal.codec.write a.toValue) (Seal.codec.write b.toValue)) ∧
    (∀ (a b : WitnessBundle) (id : DiscloseHash), a.discloseHash = .ok id →
      b.discloseHash = .ok id →
      a.toValue.Alike b.toValue ∨ Collide .disclosure a.encode b.encode) ∧
    (∀ (a b : Consignment) (id : ConsignmentId), a.schema.Regular → b.schema.Regular →
      TypeSystem.Reachable a.types → TypeSystem.Reachable b.types → a.consignmentId = .ok id →
      b.consignmentId = .ok id →
      a.toValue.Alike b.toValue ∨ Collide .consignment a.encode b.encode) := by
  refine ⟨?_, ?_, fun g t id => Operation.collide_of_opId, ?_, ?_, ?_, ?_⟩
  · intro s t id hs ht hsid htid
    exact hs.recovers.alike_or_collide ht.recovers hsid htid
  · intro a b id haid hbid
    exact a.recovers_codec.alike_or_collide b.recovers_codec haid hbid
  · intro a b id haid hbid
    rcases eq_or_collide haid hbid with ⟨p, hap, hbp⟩ | hcollide
    · exact .inl (Bundle.perm_inputMap hap hbp)
    · exact .inr hcollide
  · intro a b id haid hbid
    exact a.recovers_codec.alike_or_collide b.recovers_codec haid hbid
  · intro a b id haid hbid
    exact a.recovers_codec.alike_or_collide b.recovers_codec haid hbid
  · intro a b id hschema hschema' htypes htypes' haid hbid
    have ha := Consignment.recovers_codec hschema htypes.wellFormed
    have hb := Consignment.recovers_codec hschema' htypes'.wellFormed
    exact ha.alike_or_collide hb haid hbid

/-- A seal of the first output of the witness with a given blinding. -/
def blindedSeal (blinding : Value) : Seal := ⟨none, .int 0, blinding⟩

/-- A seal whose blinding is written as zero is concealed as the commitment to thirteen zeros. -/
theorem conceal_blindedSeal {blinding : Value}
    (h : (Codec.uint 8).write blinding = .ok (List.replicate 8 0)) :
    (blindedSeal blinding).conceal = .ok (Id.ofContent .secretSeal (List.replicate 13 0)) := by
  have habsent : (Codec.option (.id .transaction)).write .null = .ok [0] := by rw [write]
  have hvout : (Codec.uint 4).write (.int 0) = .ok (List.replicate 4 0) := by rw [write]; rfl
  have hbytes : Seal.codec.write (blindedSeal blinding).toValue = .ok (List.replicate 13 0) := by
    simp [blindedSeal, Seal.codec, Seal.toValue, write_record, writeFields, Value.field,
      Value.feature?, List.lookup_cons, Value.ofOption, habsent, hvout, h, ok_bind, pure,
      Except.pure]
  rw [Seal.conceal, hbytes]
  rfl

/-- Two seals with the same commitment, where the blinding of one is a number and that of the other
the member of an enumeration with this number, are alike or collide. -/
theorem identifiers_determine_seals : ∃ id,
    (blindedSeal (.int 0)).conceal = .ok id ∧
      (blindedSeal (.member Consignment.versions "V0" 0)).conceal = .ok id ∧
      ((blindedSeal (.int 0)).toValue.Alike
          (blindedSeal (.member Consignment.versions "V0" 0)).toValue ∨
        Collide .secretSeal (Seal.codec.write (blindedSeal (.int 0)).toValue)
          (Seal.codec.write (blindedSeal (.member Consignment.versions "V0" 0)).toValue)) := by
  have hzeros : (Codec.uint 8).write (.int 0) = .ok (List.replicate 8 0) := by rw [write]; rfl
  have hzeros' : (Codec.uint 8).write (.member Consignment.versions "V0" 0) =
      .ok (List.replicate 8 0) := by
    rw [write]
    rfl
  have hnumber := conceal_blindedSeal hzeros
  have hmember := conceal_blindedSeal hzeros'
  obtain ⟨-, -, -, -, hseals, -, -⟩ := identifiers_determine_records
  exact ⟨_, hnumber, hmember, hseals _ _ _ hnumber hmember⟩

end StrictContract
