import StrictContract.Contract.Schema
import StrictContract.Proofs.Contract.Table
import StrictContract.Proofs.TypeDef

/-! # Schemas — what their codecs read and recover

The codec of schemas is canonical and reads records of schemas only. It recovers a schema that is
**regular**: the shape of its genesis has no inputs, those of its transitions have. -/

namespace StrictContract

open Codec

namespace Occurrences

@[simp] theorem canonical_codec : Canonical codec := by simp [codec]

@[simp] theorem canonical_tableCodec : Canonical tableCodec := by simp [tableCodec]

theorem reads_codec : Reads codec toValue := by
  intro v hv
  simp only [codec, readable_record, readableFields_cons, readableFields_nil] at hv
  obtain ⟨_, ⟨min, hmin, _, ⟨max, hmax, _, rfl, rfl⟩, rfl⟩, rfl⟩ := hv
  obtain ⟨min, rfl⟩ := reads_int_of_uint _ _ hmin
  obtain ⟨max, rfl⟩ := reads_int_of_uint _ _ hmax
  exact ⟨⟨min, max⟩, rfl⟩

theorem reads_tableCodec : Reads tableCodec (Table.toValue toValue) := reads_table reads_codec _ _ _

@[simp] theorem recovers_codec (o : Occurrences) : Recovers codec o.toValue :=
  recovers_record (by decide) (by decide) (by simp [RecoversFields])

@[simp] theorem recovers_tableCodec (t : Table Int Occurrences) :
    Recovers tableCodec (t.toValue toValue) := by
  simp [tableCodec]

@[simp] theorem ofValue?_toValue (o : Occurrences) : ofValue? o.toValue = some o := by
  simp [ofValue?, toValue, List.lookup_cons, Value.int?]

@[simp] theorem ofValue?_table (t : Table Int Occurrences) :
    Table.ofValue? ofValue? (t.toValue toValue) = some t :=
  Table.ofValue?_toValue ofValue?_toValue t

end Occurrences

namespace LibSite

@[simp] theorem canonical_codec : Canonical codec := by simp [codec]

theorem reads_codec : Reads codec toValue := by
  intro v hv
  simp only [codec, readable_record, readableFields_cons, readableFields_nil] at hv
  obtain ⟨_, ⟨lib, hlib, _, ⟨position, hposition, _, rfl, rfl⟩, rfl⟩, rfl⟩ := hv
  obtain ⟨lib, rfl⟩ := reads_id _ _ hlib
  obtain ⟨position, rfl⟩ := reads_int_of_uint _ _ hposition
  exact ⟨⟨lib, position⟩, rfl⟩

@[simp] theorem recovers_codec (s : LibSite) : Recovers codec s.toValue :=
  recovers_record (by decide) (by decide) (by simp [RecoversFields])

@[simp] theorem recovers_option (s : Option LibSite) :
    Recovers (.option codec) (.ofOption toValue s) := by
  cases s with
  | none => exact recovers_none _
  | some s => exact recovers_some s.recovers_codec nofun

@[simp] theorem ofValue?_toValue (s : LibSite) : ofValue? s.toValue = some s := by
  simp [ofValue?, toValue, List.lookup_cons, Value.int?]

@[simp] theorem canonical_option : Canonical (.option codec) := by simp [codec]

end LibSite

namespace StateSchema

/-- The variants of declarations of state. -/
def variants : List (Nat × String × Codec) :=
  match codec with
  | .union _ variants => variants
  | _ => []

/-- Every kind of declaration has a tag and a record type of its own. -/
theorem recordVariants : RecordVariants variants := by
  constructor <;> simp [variants, codec, recordType?]

@[simp] theorem canonical_codec : Canonical codec := by
  refine canonical_union recordVariants ?_
  simp [Enumeration.lacks, Enumeration.attribute?, amountType]

theorem reads_codec : Reads codec toValue := by
  intro v hv
  have h := (readable_union recordVariants).1 hv
  simp only [variants, codec, List.mem_cons, List.not_mem_nil, or_false, exists_eq_or_imp,
    exists_eq_left, readable_record, readableFields_cons, readableFields_nil] at h
  rcases h with ⟨_, rfl, rfl⟩ | ⟨_, ⟨amount, _, _, rfl, rfl⟩, rfl⟩ | ⟨_, ⟨type, htype, _, rfl, rfl⟩, rfl⟩
  · exact ⟨.declarative, rfl⟩
  · exact ⟨.fungible amount, rfl⟩
  · obtain ⟨type, rfl⟩ := reads_id _ _ htype
    exact ⟨.structured type, rfl⟩

@[simp] theorem recovers_codec (s : StateSchema) : Recovers codec s.toValue := by
  cases s <;> refine recovers_union recordVariants ?_ <;>
    simp only [variants, codec, List.forall_mem_cons, recordType?, Option.some.injEq,
      String.reduceEq, false_implies, true_implies, true_and, List.not_mem_nil, implies_true,
      and_true] <;>
    exact recovers_record (by decide) (by decide) (by simp [RecoversFields, amountType])

@[simp] theorem ofValue?_toValue (s : StateSchema) : ofValue? s.toValue = some s := by
  cases s <;> simp [ofValue?, toValue]

end StateSchema

namespace OperationSchema

@[simp] theorem canonical_genesisCodec : Canonical Schema.genesisCodec := by
  simp [Schema.genesisCodec]

@[simp] theorem canonical_transitionCodec : Canonical Schema.transitionCodec := by
  simp [Schema.transitionCodec]

theorem reads_genesisCodec : Reads Schema.genesisCodec toValue := by
  intro v hv
  simp only [Schema.genesisCodec, readable_record, readableFields_cons, readableFields_nil] at hv
  obtain ⟨_, ⟨metadata, hmetadata, _, ⟨globals, hglobals, _, ⟨assignments, hassignments, _,
    ⟨validator, hvalidator, _, rfl, rfl⟩, rfl⟩, rfl⟩, rfl⟩, rfl⟩ := hv
  obtain ⟨metadata, rfl⟩ := Occurrences.reads_tableCodec _ hmetadata
  obtain ⟨globals, rfl⟩ := Occurrences.reads_tableCodec _ hglobals
  obtain ⟨assignments, rfl⟩ := Occurrences.reads_tableCodec _ hassignments
  obtain ⟨validator, rfl⟩ := reads_option LibSite.reads_codec _ hvalidator
  exact ⟨⟨metadata, globals, none, assignments, validator⟩, rfl⟩

theorem reads_transitionCodec : Reads Schema.transitionCodec toValue := by
  intro v hv
  simp only [Schema.transitionCodec, readable_record, readableFields_cons, readableFields_nil] at hv
  obtain ⟨_, ⟨metadata, hmetadata, _, ⟨globals, hglobals, _, ⟨inputs, hinputs, _, ⟨assignments,
    hassignments, _, ⟨validator, hvalidator, _, rfl, rfl⟩, rfl⟩, rfl⟩, rfl⟩, rfl⟩, rfl⟩ := hv
  obtain ⟨metadata, rfl⟩ := Occurrences.reads_tableCodec _ hmetadata
  obtain ⟨globals, rfl⟩ := Occurrences.reads_tableCodec _ hglobals
  obtain ⟨inputs, rfl⟩ := Occurrences.reads_tableCodec _ hinputs
  obtain ⟨assignments, rfl⟩ := Occurrences.reads_tableCodec _ hassignments
  obtain ⟨validator, rfl⟩ := reads_option LibSite.reads_codec _ hvalidator
  exact ⟨⟨metadata, globals, some inputs, assignments, validator⟩, rfl⟩

/-- Shapes without inputs are recovered as those of a genesis. -/
theorem recovers_genesisCodec {s : OperationSchema} (hs : s.inputs = none) :
    Recovers Schema.genesisCodec s.toValue := by
  rw [toValue, hs]
  exact recovers_record (by decide) (by decide) (by simp [RecoversFields])

/-- Shapes with inputs are recovered as those of a transition. -/
theorem recovers_transitionCodec {s : OperationSchema} (hs : s.inputs.isSome = true) :
    Recovers Schema.transitionCodec s.toValue := by
  obtain ⟨inputs, hinputs⟩ := Option.isSome_iff_exists.1 hs
  rw [toValue, hinputs]
  exact recovers_record (by decide) (by decide) (by simp [RecoversFields])

@[simp] theorem ofValue?_toValue (s : OperationSchema) : ofValue? s.toValue = some s := by
  obtain ⟨metadata, globals, _ | inputs, assignments, _ | validator⟩ := s <;>
    simp [ofValue?, toValue, Value.ofOption, List.lookup_cons, LibSite.ofValue?, LibSite.toValue,
      Value.int?]

end OperationSchema

namespace Schema

/-! ## Declarations -/

/-- The codec of the types of metadata. -/
def metaCodec : Codec :=
  .struct "MetaDetails" [("sem_id", .id .sem), ("name", fieldName)] (.record "MetaDetails") false

/-- The codec of the types of global state. -/
def globalCodec : Codec :=
  .struct "GlobalDetails" [("sem_id", .id .sem), ("max_items", .uint 2), ("name", fieldName)]
    (.record "GlobalDetails") false

/-- The codec of the types of owned state. -/
def ownedCodec : Codec :=
  .struct "AssignmentDetails" [("state_schema", StateSchema.codec), ("name", fieldName)]
    (.record "AssignmentDetails") false

/-- The codec of the types of transitions. -/
def transitionDetailsCodec : Codec :=
  .struct "TransitionDetails" [("transition_schema", transitionCodec), ("name", fieldName)]
    (.record "TransitionDetails") false

/-- The record of a type of transition. -/
def transitionDetailsValue (d : TransitionDetails) : Value :=
  .record "TransitionDetails" [("transition_schema", d.shape.toValue), ("name", d.name)]

@[simp] theorem canonical_fieldName : Canonical fieldName := canonical_ascii ..

@[simp] theorem canonical_schemaName : Canonical schemaName := canonical_ascii ..

/-- The codec of schemas is canonical. -/
@[simp] theorem canonical_codec : Canonical codec := by
  have hmeta : Canonical metaCodec := by simp [metaCodec]
  have hglobal : Canonical globalCodec := by simp [globalCodec]
  have howned : Canonical ownedCodec := by simp [ownedCodec]
  have htransition : Canonical transitionDetailsCodec := by simp [transitionDetailsCodec]
  have hbyType : ∀ c, Canonical c → Canonical (byType c) := fun c hc =>
    canonical_map (canonical_uint 2) (keyed_uint 2) hc _ _
  refine canonical_record (by decide) (by decide) ?_
  simp only [List.forall_mem_cons, List.not_mem_nil, false_implies, implies_true, and_true]
  exact ⟨canonical_schemaName, hbyType _ hmeta, hbyType _ hglobal, hbyType _ howned,
    OperationSchema.canonical_genesisCodec, hbyType _ htransition⟩

theorem reads_metaCodec : Reads metaCodec MetaDetails.toValue := by
  intro v hv
  simp only [metaCodec, readable_record, readableFields_cons, readableFields_nil] at hv
  obtain ⟨_, ⟨type, htype, _, ⟨name, _, _, rfl, rfl⟩, rfl⟩, rfl⟩ := hv
  obtain ⟨type, rfl⟩ := reads_id _ _ htype
  exact ⟨⟨type, name⟩, rfl⟩

theorem reads_globalCodec : Reads globalCodec GlobalDetails.toValue := by
  intro v hv
  simp only [globalCodec, readable_record, readableFields_cons, readableFields_nil] at hv
  obtain ⟨_, ⟨type, htype, _, ⟨maxItems, hmax, _, ⟨name, _, _, rfl, rfl⟩, rfl⟩, rfl⟩, rfl⟩ := hv
  obtain ⟨type, rfl⟩ := reads_id _ _ htype
  obtain ⟨maxItems, rfl⟩ := reads_int_of_uint _ _ hmax
  exact ⟨⟨type, maxItems, name⟩, rfl⟩

theorem reads_ownedCodec : Reads ownedCodec OwnedDetails.toValue := by
  intro v hv
  simp only [ownedCodec, readable_record, readableFields_cons, readableFields_nil] at hv
  obtain ⟨_, ⟨state, hstate, _, ⟨name, _, _, rfl, rfl⟩, rfl⟩, rfl⟩ := hv
  obtain ⟨state, rfl⟩ := StateSchema.reads_codec _ hstate
  exact ⟨⟨state, name⟩, rfl⟩

theorem reads_transitionDetailsCodec : Reads transitionDetailsCodec transitionDetailsValue := by
  intro v hv
  simp only [transitionDetailsCodec, readable_record, readableFields_cons, readableFields_nil] at hv
  obtain ⟨_, ⟨shape, hshape, _, ⟨name, _, _, rfl, rfl⟩, rfl⟩, rfl⟩ := hv
  obtain ⟨shape, rfl⟩ := OperationSchema.reads_transitionCodec _ hshape
  exact ⟨⟨shape, name⟩, rfl⟩

/-! ## Schemas -/

theorem reads_codec : Reads codec toValue := by
  intro v hv
  simp only [codec, readable_record, readableFields_cons, readableFields_nil] at hv
  obtain ⟨_, ⟨name, _, _, ⟨metaTypes, hmeta, _, ⟨globalTypes, hglobal, _, ⟨ownedTypes, howned, _,
    ⟨genesis, hgenesis, _, ⟨transitions, htransitions, _, rfl, rfl⟩, rfl⟩, rfl⟩, rfl⟩, rfl⟩, rfl⟩,
    rfl⟩ := hv
  obtain ⟨metaTypes, rfl⟩ := reads_table reads_metaCodec _ _ _ _ hmeta
  obtain ⟨globalTypes, rfl⟩ := reads_table reads_globalCodec _ _ _ _ hglobal
  obtain ⟨ownedTypes, rfl⟩ := reads_table reads_ownedCodec _ _ _ _ howned
  obtain ⟨genesis, rfl⟩ := OperationSchema.reads_genesisCodec _ hgenesis
  obtain ⟨transitions, rfl⟩ := reads_table reads_transitionDetailsCodec _ _ _ _ htransitions
  exact ⟨⟨name, metaTypes, globalTypes, ownedTypes, genesis, transitions⟩, rfl⟩

/-- A **regular** schema: the shape of the genesis has no inputs, those of transitions have. -/
structure Regular (s : Schema) : Prop where
  genesis : s.genesis.inputs = none
  transitions : ∀ e ∈ s.transitions.entries, e.2.shape.inputs.isSome = true

/-- Regular schemas are recovered. -/
theorem Regular.recovers {s : Schema} (hs : s.Regular) : Recovers codec s.toValue := by
  have hname : ∀ v, Recovers schemaName v := fun v => recovers_ascii _ _ _ _ v
  have hfield : ∀ v, Recovers fieldName v := fun v => recovers_ascii _ _ _ _ v
  have hmeta : ∀ d, Recovers metaCodec (MetaDetails.toValue d) := fun d =>
    recovers_record (by decide) (by decide) (by simp [RecoversFields, hfield])
  have hglobal : ∀ d, Recovers globalCodec (GlobalDetails.toValue d) := fun d =>
    recovers_record (by decide) (by decide) (by simp [RecoversFields, hfield])
  have howned : ∀ d, Recovers ownedCodec (OwnedDetails.toValue d) := fun d =>
    recovers_record (by decide) (by decide) (by simp [RecoversFields, hfield])
  have htransitions : ∀ e ∈ s.transitions.entries,
      Recovers transitionDetailsCodec (transitionDetailsValue e.2) := fun e he =>
    recovers_record (by decide) (by decide) (by
      simp [RecoversFields, hfield, OperationSchema.recovers_transitionCodec (hs.transitions e he)])
  refine recovers_record (by decide) (by decide) ?_
  exact ⟨rfl, hname _, rfl, recovers_table (fun e _ => hmeta e.2) _ _ _, rfl,
    recovers_table (fun e _ => hglobal e.2) _ _ _, rfl, recovers_table (fun e _ => howned e.2) _ _ _,
    rfl, OperationSchema.recovers_genesisCodec hs.genesis, rfl, recovers_table htransitions _ _ _,
    trivial⟩

/-- The record of a schema gives the schema back. -/
@[simp] theorem ofValue?_toValue (s : Schema) : ofValue? s.toValue = some s := by
  have hmeta := Table.ofValue?_toValue (g := MetaDetails.toValue) (h := MetaDetails.ofValue?)
    (by simp [MetaDetails.ofValue?, MetaDetails.toValue, List.lookup_cons]) s.metaTypes
  have hglobal := Table.ofValue?_toValue (g := GlobalDetails.toValue) (h := GlobalDetails.ofValue?)
    (by simp [GlobalDetails.ofValue?, GlobalDetails.toValue, List.lookup_cons, Value.int?])
    s.globalTypes
  have howned := Table.ofValue?_toValue (g := OwnedDetails.toValue) (h := OwnedDetails.ofValue?)
    (by simp [OwnedDetails.ofValue?, OwnedDetails.toValue, List.lookup_cons]) s.ownedTypes
  have htransitions := Table.ofValue?_toValue (g := transitionDetailsValue)
    (h := fun x => do
      return (⟨← OperationSchema.ofValue? (← x.part? "transition_schema"), ← x.part? "name"⟩ :
        TransitionDetails))
    (by simp [transitionDetailsValue, List.lookup_cons]) s.transitions
  simp only [ofValue?, toValue, Value.part?_record, List.lookup_cons, String.reduceBEq,
    beq_self_eq_true, Option.bind_eq_bind, Option.bind_some, hmeta, hglobal, howned,
    OperationSchema.ofValue?_toValue]
  unfold transitionDetailsValue at htransitions
  simp only [Option.bind_eq_bind] at htransitions
  rw [htransitions]
  rfl

end Schema

end StrictContract
