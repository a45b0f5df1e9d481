import StrictContract.Proofs.Arrangement
import StrictContract.Proofs.Binding
import StrictContract.Proofs.Contract.Table
import StrictContract.Proofs.TypeDef

/-! # Operations — what their codecs read and recover

For every record that an operation is made of: its codec is canonical, reads records of this kind
only, and recovers every record that it writes; and the record gives back what it is the record of. -/

namespace StrictContract

open Codec

/-! ## Opouts -/

namespace Opout

@[simp] theorem canonical_codec : Canonical codec := by simp [codec]

/-- Opouts are keys, told apart by their parts. -/
@[simp] theorem keyed_codec : Keyed codec := by simp [codec, comparedTypes]

theorem reads_codec : Reads codec toValue := by
  intro v hv
  simp only [codec, readable_record, readableFields_cons, readableFields_nil] at hv
  obtain ⟨_, ⟨op, hop, _, ⟨type, htype, _, ⟨index, hindex, _, rfl, rfl⟩, rfl⟩, rfl⟩, rfl⟩ := hv
  obtain ⟨op, rfl⟩ := reads_id _ _ hop
  obtain ⟨type, rfl⟩ := reads_int_of_uint _ _ htype
  obtain ⟨index, rfl⟩ := reads_int_of_uint _ _ hindex
  exact ⟨⟨op, type, index⟩, rfl⟩

@[simp] theorem recovers_codec (o : Opout) : Recovers codec o.toValue :=
  recovers_record (by decide) (by decide) (by simp [RecoversFields])

@[simp] theorem ofValue?_toValue (o : Opout) : ofValue? o.toValue = some o := by
  simp [ofValue?, toValue, List.lookup_cons, Value.int?]

/-- Opouts are alike when they are equal. -/
theorem eq_of_alike {a b : Opout} (h : a.toValue.Alike b.toValue) : a = b := by
  obtain ⟨-, -, hop, -, htype, -, hindex, -⟩ := (Value.Alike.record_iff (by decide)).1 h
  rw [Value.Alike.id_iff] at hop
  rw [Value.Alike.int_iff] at htype hindex
  cases a
  cases b
  cases hop
  cases htype
  cases hindex
  rfl

/-- Opouts with the same encoding are the same. -/
theorem eq_of_write {a b : Opout} {p : Octets} (ha : codec.write a.toValue = .ok p)
    (hb : codec.write b.toValue = .ok p) : a = b :=
  eq_of_alike ((recovers_codec a).alike (recovers_codec b) ha hb)

/-- The order of opouts compares their parts one after another. -/
theorem le_iff {a b : Opout} : a.le b = true ↔ a.op.octets < b.op.octets ∨
    a.op = b.op ∧ (a.type < b.type ∨ a.type = b.type ∧ a.index ≤ b.index) := by
  rw [le]
  by_cases hop : a.op = b.op
  · rw [if_neg (not_not_intro hop), hop]
    by_cases htype : a.type = b.type
    · simp [htype, List.lt_irrefl]
    · simp [htype, List.lt_irrefl, Int.le_iff_lt_or_eq]
  · rw [if_pos hop, Id.le, Octets.le, decide_eq_true_iff, List.le_iff_lt_or_eq]
    simp [hop, mt Id.ext hop]

theorem le_trans {a b c : Opout} (hab : a.le b = true) (hbc : b.le c = true) : a.le c = true := by
  rw [le_iff] at hab hbc ⊢
  rcases hab with hab | ⟨hab, hrest⟩
  · rcases hbc with hbc | ⟨hbc, -⟩
    · exact .inl (List.lt_trans hab hbc)
    · exact .inl (hbc ▸ hab)
  · rcases hbc with hbc | ⟨hbc, hrest'⟩
    · exact .inl (hab ▸ hbc)
    · exact .inr ⟨hab.trans hbc, by omega⟩

theorem le_total (a b : Opout) : (a.le b || b.le a) = true := by
  rw [Bool.or_eq_true, le_iff, le_iff]
  by_cases hop : a.op = b.op
  · rw [hop]
    simp only [List.lt_irrefl, false_or, true_and]
    omega
  · rcases List.le_total a.op.octets b.op.octets with h | h
    · exact .inl (.inl ((List.le_iff_lt_or_eq.1 h).resolve_right (mt Id.ext hop)))
    · exact .inr (.inl ((List.le_iff_lt_or_eq.1 h).resolve_right (mt Id.ext (Ne.symm hop))))

theorem le_antisymm {a b : Opout} (hab : a.le b = true) (hba : b.le a = true) : a = b := by
  rw [le_iff] at hab hba
  rcases hab with hab | ⟨hop, hrest⟩
  · rcases hba with hba | ⟨hop, -⟩
    · exact absurd hba (List.lt_asymm hab)
    · exact absurd (hop ▸ hab) (List.lt_irrefl _)
  · rcases hba with hba | ⟨-, hrest'⟩
    · exact absurd (hop ▸ hba) (List.lt_irrefl _)
    · obtain ⟨op, type, index⟩ := a
      obtain ⟨op', type', index'⟩ := b
      simp only at hop hrest hrest'
      obtain rfl : type = type' := by omega
      obtain rfl : index = index' := by omega
      rw [hop]

/-- Opouts are ordered by their parts. -/
theorem orders_le : Orders le where
  trans _ _ _ := le_trans
  total := le_total
  antisymm _ _ := le_antisymm

end Opout

/-! ## Seals -/

namespace Seal

@[simp] theorem canonical_codec : Canonical codec := by simp [codec]

theorem reads_codec : Reads codec toValue := by
  intro v hv
  simp only [codec, readable_record, readableFields_cons, readableFields_nil] at hv
  obtain ⟨_, ⟨txid, htxid, _, ⟨vout, _, _, ⟨blinding, _, _, rfl, rfl⟩, rfl⟩, rfl⟩, rfl⟩ := hv
  obtain ⟨txid, rfl⟩ := reads_option (reads_id _) _ htxid
  exact ⟨⟨txid, vout, blinding⟩, rfl⟩

@[simp] theorem recovers_codec (s : Seal) : Recovers codec s.toValue := by
  have htxid : Recovers (.option (.id .transaction))
      (.ofOption (.id .transaction) s.transaction) := by
    cases s.transaction with
    | none => exact recovers_none _
    | some txid => exact recovers_some (recovers_id _ _) nofun
  exact recovers_record (by decide) (by decide) (by simp [RecoversFields, htxid])

@[simp] theorem ofValue?_toValue (s : Seal) : ofValue? s.toValue = some s := by
  obtain ⟨_ | txid, vout, blinding⟩ := s <;>
    simp [ofValue?, toValue, Value.ofOption, List.lookup_cons]

end Seal

/-! ## Assignments -/

namespace StateKind

@[simp] theorem canonical_codec (kind : StateKind) : Canonical kind.codec := by
  cases kind <;> simp [codec]

/-- State of every kind is recovered from whatever it is written for. -/
@[simp] theorem recovers_codec (kind : StateKind) (v : Value) : Recovers kind.codec v := by
  cases kind <;> simp [codec]

end StateKind

namespace Assignment

/-- The variants of assignments. -/
def variants (kind : StateKind) : List (Nat × String × Codec) :=
  match codec kind with
  | .union _ variants => variants
  | _ => []

/-- Both forms of assignments have a tag and a record type of their own. -/
theorem recordVariants (kind : StateKind) : RecordVariants (variants kind) := by
  constructor <;> simp [variants, codec, recordType?]

@[simp] theorem canonical_codec (kind : StateKind) : Canonical (codec kind) := by
  refine canonical_union (recordVariants kind) ?_
  simp

theorem reads_codec (kind : StateKind) : Reads (codec kind) toValue := by
  intro v hv
  have h := (readable_union (recordVariants kind)).1 hv
  simp only [variants, codec, List.mem_cons, List.not_mem_nil, or_false, exists_eq_or_imp,
    exists_eq_left, readable_record, readableFields_cons, readableFields_nil] at h
  rcases h with ⟨_, ⟨secret, hsecret, _, ⟨state, _, _, rfl, rfl⟩, rfl⟩, rfl⟩ |
    ⟨_, ⟨definition, hdefinition, _, ⟨state, _, _, rfl, rfl⟩, rfl⟩, rfl⟩
  · obtain ⟨secret, rfl⟩ := reads_id _ _ hsecret
    exact ⟨.confidential secret state, rfl⟩
  · obtain ⟨definition, rfl⟩ := Seal.reads_codec _ hdefinition
    exact ⟨.revealed definition state, rfl⟩

@[simp] theorem recovers_codec (kind : StateKind) (a : Assignment) :
    Recovers (codec kind) a.toValue := by
  cases a <;> refine recovers_union (recordVariants kind) ?_ <;>
    simp only [variants, codec, List.forall_mem_cons, recordType?, Option.some.injEq,
      String.reduceEq, false_implies, true_implies, true_and, List.not_mem_nil, implies_true,
      and_true] <;>
    exact recovers_record (by decide) (by simp) (by simp [RecoversFields])

@[simp] theorem ofValue?_toValue (a : Assignment) : ofValue? a.toValue = some a := by
  cases a <;> simp [ofValue?, toValue, List.lookup_cons]

end Assignment

namespace Assignments

/-- The variants of the assignments of one type. -/
def variants : List (Nat × String × Codec) :=
  match codec with
  | .union _ variants => variants
  | _ => []

/-- Kinds of state are told apart by the names of their records. -/
theorem recordName_inj {kind kind' : StateKind} (h : recordName kind = recordName kind') :
    kind = kind' := by
  cases kind <;> cases kind' <;> first | rfl | exact absurd h (by decide)

/-- Every kind of state has a tag and a record type of its own. -/
theorem recordVariants : RecordVariants variants := by
  constructor <;> simp [variants, codec, recordType?, recordName, StateKind.name]

@[simp] theorem canonical_codec : Canonical codec := by
  refine canonical_union recordVariants ?_
  simp [recordName, StateKind.name]

theorem reads_codec : Reads codec toValue := by
  intro v hv
  have h := (readable_union recordVariants).1 hv
  simp only [variants, codec, List.map_cons, List.map_nil, List.mem_cons, List.not_mem_nil, or_false,
    exists_eq_or_imp, exists_eq_left, readable_record, readableFields_cons, readableFields_nil] at h
  rcases h with ⟨_, ⟨items, hitems, _, rfl, rfl⟩, rfl⟩ | ⟨_, ⟨items, hitems, _, rfl, rfl⟩, rfl⟩ |
    ⟨_, ⟨items, hitems, _, rfl, rfl⟩, rfl⟩ <;>
    obtain ⟨items, rfl⟩ := reads_list (Assignment.reads_codec _) _ _ _ hitems
  · exact ⟨⟨.declarative, items⟩, rfl⟩
  · exact ⟨⟨.fungible, items⟩, rfl⟩
  · exact ⟨⟨.structured, items⟩, rfl⟩

@[simp] theorem recovers_codec (a : Assignments) : Recovers codec a.toValue := by
  obtain ⟨kind, items⟩ := a
  refine recovers_union recordVariants ?_
  cases kind <;>
    simp only [variants, codec, List.map_cons, List.map_nil, List.forall_mem_cons, recordType?,
      recordName, StateKind.name, String.reduceAppend, Option.some.injEq, String.reduceEq,
      false_implies, true_implies, true_and, List.not_mem_nil, implies_true, and_true] <;>
    exact recovers_record (by decide) (by decide) (by simp [RecoversFields])

@[simp] theorem ofValue?_toValue (a : Assignments) : ofValue? a.toValue = some a := by
  obtain ⟨kind, items⟩ := a
  have hkind : (StateKind.all.find? fun k =>
      recordName k == (toValue ⟨kind, items⟩).typeName) = some kind := by
    cases kind <;> rfl
  rw [ofValue?, hkind]
  simp [toValue, Value.sequence?, mapM_eq_some_self]

end Assignments

/-! ## State of an operation -/

namespace OperationState

@[simp] theorem canonical_metadataCodec : Canonical metadataCodec := by simp [metadataCodec]

@[simp] theorem canonical_globalsCodec : Canonical globalsCodec := by simp [globalsCodec]

@[simp] theorem canonical_assignmentsCodec : Canonical assignmentsCodec := by
  simp [assignmentsCodec]

theorem reads_metadataCodec : Reads metadataCodec (Table.toValue id) :=
  reads_table (fun v _ => ⟨v, rfl⟩) _ _ _

theorem reads_globalsCodec : Reads globalsCodec (Table.toValue .tuple) := by
  refine reads_table (fun v hv => ?_) _ _ _
  obtain ⟨items, rfl⟩ := reads_list (f := id) (fun v _ => ⟨v, rfl⟩) _ _ v hv
  exact ⟨items, by simp only [List.map_id]⟩

theorem reads_assignmentsCodec : Reads assignmentsCodec (Table.toValue Assignments.toValue) :=
  reads_table Assignments.reads_codec _ _ _

@[simp] theorem recovers_metadataCodec (s : OperationState) :
    Recovers metadataCodec s.metadataValue := by
  simp [metadataCodec, metadataValue]

@[simp] theorem recovers_globalsCodec (s : OperationState) :
    Recovers globalsCodec s.globalsValue :=
  recovers_table (fun _ _ => recovers_list fun v _ => recovers_bytes _ _ v) _ _ _

@[simp] theorem recovers_assignmentsCodec (s : OperationState) :
    Recovers assignmentsCodec s.assignmentsValue := by
  simp [assignmentsCodec, assignmentsValue]

/-- The state of an operation is taken back from a record with its three fields. -/
theorem ofValue?_eq_some {v : Value} {s : OperationState}
    (hmetadata : v.part? "metadata" = some s.metadataValue)
    (hglobals : v.part? "globals" = some s.globalsValue)
    (hassignments : v.part? "assignments" = some s.assignmentsValue) : ofValue? v = some s := by
  have hmetadata' : Table.ofValue? some s.metadataValue = some s.metadata :=
    Table.ofValue?_toValue (fun _ => rfl) s.metadata
  have hglobals' : Table.ofValue? Value.sequence? s.globalsValue = some s.globals :=
    @Table.ofValue?_toValue _ .tuple Value.sequence? (fun _ => rfl) s.globals
  have hassignments' : Table.ofValue? Assignments.ofValue? s.assignmentsValue =
      some s.assignments :=
    Table.ofValue?_toValue Assignments.ofValue?_toValue s.assignments
  simp [ofValue?, hmetadata, hglobals, hassignments, hmetadata', hglobals', hassignments']

end OperationState

/-! ## Genesis and transitions -/

namespace Genesis

@[simp] theorem canonical_codec : Canonical codec := by
  simp [codec, issuerCodec, Enumeration.lacks, Enumeration.attribute?, StrictContract.chainNet,
    sealClosingStrategy]

theorem reads_codec : Reads codec toValue := by
  intro v hv
  simp only [codec, readable_record, readableFields_cons, readableFields_nil] at hv
  obtain ⟨_, ⟨schemaId, hschema, _, ⟨timestamp, _, _, ⟨issuer, _, _, ⟨net, _, _, ⟨strategy, _, _,
    ⟨metadata, hmetadata, _, ⟨globals, hglobals, _, ⟨assignments, hassignments, _, rfl, rfl⟩, rfl⟩,
    rfl⟩, rfl⟩, rfl⟩, rfl⟩, rfl⟩, rfl⟩, rfl⟩ := hv
  obtain ⟨schemaId, rfl⟩ := reads_id _ _ hschema
  obtain ⟨metadata, rfl⟩ := OperationState.reads_metadataCodec _ hmetadata
  obtain ⟨globals, rfl⟩ := OperationState.reads_globalsCodec _ hglobals
  obtain ⟨assignments, rfl⟩ := OperationState.reads_assignmentsCodec _ hassignments
  exact ⟨⟨schemaId, timestamp, issuer, net, strategy, ⟨metadata, globals, assignments⟩⟩, rfl⟩

@[simp] theorem recovers_codec (g : Genesis) : Recovers codec g.toValue :=
  recovers_record (by decide) (by decide)
    (by simp [RecoversFields, issuerCodec, StrictContract.chainNet, sealClosingStrategy])

@[simp] theorem ofValue?_toValue (g : Genesis) : ofValue? g.toValue = some g := by
  have hstate : OperationState.ofValue? g.toValue = some g.state :=
    OperationState.ofValue?_eq_some rfl rfl rfl
  rw [ofValue?, hstate]
  simp [toValue, List.lookup_cons]

end Genesis

namespace Transition

@[simp] theorem canonical_codec : Canonical codec := by simp [codec]

theorem reads_codec : Reads codec toValue := by
  intro v hv
  simp only [codec, readable_record, readableFields_cons, readableFields_nil] at hv
  obtain ⟨_, ⟨contractId, hcontract, _, ⟨type, _, _, ⟨nonce, _, _, ⟨metadata, hmetadata, _,
    ⟨globals, hglobals, _, ⟨inputs, hinputs, _, ⟨assignments, hassignments, _, rfl, rfl⟩, rfl⟩,
    rfl⟩, rfl⟩, rfl⟩, rfl⟩, rfl⟩, rfl⟩ := hv
  obtain ⟨contractId, rfl⟩ := reads_id _ _ hcontract
  obtain ⟨metadata, rfl⟩ := OperationState.reads_metadataCodec _ hmetadata
  obtain ⟨globals, rfl⟩ := OperationState.reads_globalsCodec _ hglobals
  obtain ⟨inputs, rfl⟩ := reads_set Opout.keyed_codec Opout.reads_codec _ _ _ hinputs
  obtain ⟨assignments, rfl⟩ := OperationState.reads_assignmentsCodec _ hassignments
  exact ⟨⟨contractId, type, nonce, inputs, ⟨metadata, globals, assignments⟩⟩, rfl⟩

@[simp] theorem recovers_codec (t : Transition) : Recovers codec t.toValue :=
  recovers_record (by decide) (by decide) (by simp [RecoversFields])

@[simp] theorem ofValue?_toValue (t : Transition) : ofValue? t.toValue = some t := by
  have hstate : OperationState.ofValue? t.toValue = some t.state :=
    OperationState.ofValue?_eq_some rfl rfl rfl
  rw [ofValue?, hstate]
  simp [toValue, List.lookup_cons, Value.sequence?, mapM_eq_some_self]

end Transition

namespace Operation

/-- The variants of operations. -/
def variants : List (Nat × String × Codec) :=
  match codec with
  | .union _ variants => variants
  | _ => []

/-- Both kinds of operations have a tag and a record type of their own. -/
theorem recordVariants : RecordVariants variants := by
  constructor <;> simp [variants, codec, Genesis.codec, Transition.codec, recordType?]

/-- A genesis is encoded as an operation under its tag. -/
theorem encode_genesis_eq_ok {g : Genesis} {p : Octets} :
    (genesis g).encode = .ok p ↔ ∃ q, Genesis.codec.write g.toValue = .ok q ∧ p = 0 :: q := by
  have hcodec : codec = .union "Operation" variants := rfl
  rw [encode, hcodec, toValue, Genesis.toValue, write_union_record,
    recordVariants.writeAccepted_eq_ok]
  simp [variants, codec, Genesis.codec, Transition.codec, recordType?]

/-- A transition is encoded as an operation under its tag. -/
theorem encode_transition_eq_ok {t : Transition} {p : Octets} :
    (transition t).encode = .ok p ↔ ∃ q, Transition.codec.write t.toValue = .ok q ∧ p = 1 :: q := by
  have hcodec : codec = .union "Operation" variants := rfl
  rw [encode, hcodec, toValue, Transition.toValue, write_union_record,
    recordVariants.writeAccepted_eq_ok]
  simp [variants, codec, Genesis.codec, Transition.codec, recordType?]

end Operation

end StrictContract
