import StrictContract.Contract.Bundle
import StrictContract.Proofs.Contract.Operation

/-! # Bundles — what their codecs read and recover

The codecs of witnesses, bundles and bundles with their witnesses are canonical, read records of
their kind only and recover every record that they write. -/

namespace StrictContract

open Codec

namespace Witness

/-- The variants of witnesses. -/
def variants : List (Nat × String × Codec) :=
  match codec with
  | .union _ variants => variants
  | _ => []

/-- Both forms of witnesses have a tag and a record type of their own. -/
theorem recordVariants : RecordVariants variants := by
  constructor <;> simp [variants, codec, recordType?]

@[simp] theorem canonical_codec : Canonical codec := by
  refine canonical_union recordVariants ?_
  simp

theorem reads_codec : Reads codec toValue := by
  intro v hv
  have h := (readable_union recordVariants).1 hv
  simp only [variants, codec, List.mem_cons, List.not_mem_nil, or_false, exists_eq_or_imp,
    exists_eq_left, readable_record, readableFields_cons, readableFields_nil] at h
  rcases h with ⟨_, ⟨id, hid, _, rfl, rfl⟩, rfl⟩ | ⟨_, ⟨raw, hraw, _, rfl, rfl⟩, rfl⟩
  · obtain ⟨id, rfl⟩ := reads_id _ _ hid
    exact ⟨.txid id, rfl⟩
  · obtain ⟨raw, rfl⟩ := reads_bytes _ _ _ hraw
    exact ⟨.tx raw, rfl⟩

@[simp] theorem recovers_codec (w : Witness) : Recovers codec w.toValue := by
  cases w <;> refine recovers_union recordVariants ?_ <;>
    simp only [variants, codec, List.forall_mem_cons, recordType?, Option.some.injEq,
      String.reduceEq, false_implies, true_implies, true_and, List.not_mem_nil, implies_true,
      and_true] <;>
    exact recovers_record (by decide) (by decide) (by simp [RecoversFields])

@[simp] theorem ofValue?_toValue (w : Witness) : ofValue? w.toValue = some w := by
  cases w <;> simp [ofValue?, toValue, Value.octets?]

end Witness

namespace Bundle

@[simp] theorem canonical_inputMapCodec : Canonical inputMapCodec := by simp [inputMapCodec]

theorem reads_inputMapCodec :
    Reads inputMapCodec (Table.mapping Opout.toValue (.id .operation)) :=
  reads_mapping Opout.canonical_codec Opout.keyed_codec Opout.reads_codec (reads_id _) _ _

@[simp] theorem canonical_codec : Canonical codec := by simp [codec]

theorem reads_codec : Reads codec toValue := by
  intro v hv
  simp only [codec, readable_record, readableFields_cons, readableFields_nil] at hv
  obtain ⟨_, ⟨inputMap, hinputs, _, ⟨known, hknown, _, rfl, rfl⟩, rfl⟩, rfl⟩ := hv
  obtain ⟨inputMap, rfl⟩ := reads_inputMapCodec _ hinputs
  obtain ⟨known, rfl⟩ := reads_mapping (canonical_id _) (keyed_id _) (reads_id _)
    Transition.reads_codec _ _ _ hknown
  exact ⟨⟨inputMap, known⟩, rfl⟩

@[simp] theorem recovers_codec (b : Bundle) : Recovers codec b.toValue :=
  recovers_record (by decide) (by decide)
    (by simp [RecoversFields, inputMapCodec, inputMapValue])

@[simp] theorem ofValue?_toValue (b : Bundle) : ofValue? b.toValue = some b := by
  have hinputs := mapM_map_eq_some
    (f := fun e : Opout × OpId => (e.1.toValue, Value.id .operation e.2))
    (h := fun e : Value × Value => do return (← Opout.ofValue? e.1, ← e.2.id? .operation))
    (by simp) b.inputMap.entries
  have hknown := mapM_map_eq_some
    (f := fun e : OpId × Transition => (Value.id .operation e.1, e.2.toValue))
    (h := fun e : Value × Value => do return (← e.1.id? .operation, ← Transition.ofValue? e.2))
    (by simp) b.known.entries
  show (do
    let inputs ← (b.inputMap.entries.map fun e => (e.1.toValue, Value.id .operation e.2)).mapM
      fun e : Value × Value => do return (← Opout.ofValue? e.1, ← e.2.id? .operation)
    let known ← (b.known.entries.map fun e => (Value.id .operation e.1, e.2.toValue)).mapM
      fun e : Value × Value => do return (← e.1.id? .operation, ← Transition.ofValue? e.2)
    return ⟨.ofList inputs, .ofList known⟩ : Option Bundle) = some b
  rw [hinputs, hknown]
  show some (⟨.ofList b.inputMap.entries, .ofList b.known.entries⟩ : Bundle) = some b
  rw [Table.ofList_entries, Table.ofList_entries]

/-- The encoding of input maps is injective: input maps with the same canonical bytes have the same
entries. -/
theorem perm_inputMap {b c : Bundle} {p : Octets} (hb : inputMapCodec.write b.inputMapValue = .ok p)
    (hc : inputMapCodec.write c.inputMapValue = .ok p) :
    b.inputMap.entries.Perm c.inputMap.entries := by
  have hrecovers : ∀ d : Bundle, Recovers inputMapCodec d.inputMapValue := fun d =>
    recovers_mapping Opout.keyed_codec Opout.recovers_codec (fun e _ => recovers_id _ _) _ _
  obtain ⟨v, hv, hbv⟩ := hrecovers b p hb
  obtain ⟨w, hw, hcw⟩ := hrecovers c p hc
  obtain ⟨rfl, -⟩ := hv.unique hw (s := []) rfl
  refine Value.Alike.perm_of_map (f := fun e : Opout × OpId => e.1.toValue)
    (g := fun e => .id .operation e.2) (fun d e hkey hid => ?_) (hbv.trans hcw.symm)
  exact Prod.ext (Opout.eq_of_alike hkey) (Value.Alike.id_iff.1 hid)

end Bundle

namespace WitnessBundle

@[simp] theorem canonical_codec : Canonical codec := by simp [codec]

theorem reads_codec : Reads codec toValue := by
  intro v hv
  simp only [codec, readable_record, readableFields_cons, readableFields_nil] at hv
  obtain ⟨_, ⟨witness, hwitness, _, ⟨bundle, hbundle, _, rfl, rfl⟩, rfl⟩, rfl⟩ := hv
  obtain ⟨witness, rfl⟩ := Witness.reads_codec _ hwitness
  obtain ⟨bundle, rfl⟩ := Bundle.reads_codec _ hbundle
  exact ⟨⟨witness, bundle⟩, rfl⟩

@[simp] theorem recovers_codec (w : WitnessBundle) : Recovers codec w.toValue :=
  recovers_record (by decide) (by decide) (by simp [RecoversFields])

@[simp] theorem ofValue?_toValue (w : WitnessBundle) : ofValue? w.toValue = some w := by
  simp [ofValue?, toValue, List.lookup_cons]

end WitnessBundle

end StrictContract
