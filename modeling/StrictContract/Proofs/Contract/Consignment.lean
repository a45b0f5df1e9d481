import StrictContract.Contract.Consignment
import StrictContract.Proofs.Codec.Written
import StrictContract.Proofs.Contract.Bundle
import StrictContract.Proofs.Contract.Schema
import StrictContract.Proofs.TypeSystem.Language
import StrictContract.Proofs.TypeSystem.Reachable

/-! # Consignments — one encoding for each, one consignment for each encoding

The codec of consignments is canonical, and it recovers every consignment with a regular schema and
a well-formed type system. Script libraries are written as byte strings but read as records of their
own; the two are alike and have the same bytes. The running example of a consignment has **views** of one
bundle, of which each reveals the transition that passes on one right of the genesis. -/

namespace StrictContract

open Codec

namespace Consignment

/-! ## Script libraries -/

/-- The record of a script library, as it is read. -/
def libraryValue (code : Octets) : Value := .record "Lib" [("code", .bytes code)]

/-- What encodes a script library is its code behind its length. -/
theorem encodes_libraryCodec_iff {v : Value} {p : Octets} :
    libraryCodec.Encodes v p ↔ ∃ code, v = libraryValue code ∧
      (Codec.bytes .shortNonempty (some "LibCode")).Encodes (.bytes code) p := by
  rw [libraryCodec, encodes_record_iff]
  constructor
  · rintro ⟨vs, ⟨w, ws, q, t, rfl, rfl, hw, rfl, rfl⟩, rfl⟩
    obtain ⟨code, rfl⟩ := reads_bytes _ _ _ ⟨q, hw⟩
    exact ⟨code, rfl, by rwa [List.append_nil]⟩
  · rintro ⟨code, rfl, hp⟩
    exact ⟨_, ⟨_, [], p, [], rfl, (List.append_nil p).symm, hp, rfl, rfl⟩, rfl⟩

/-- A record of a script library is written as its code. -/
theorem write_libraryValue {code p : Octets} :
    libraryCodec.write (libraryValue code) = .ok p ↔
      (Codec.bytes .shortNonempty (some "LibCode")).write (.bytes code) = .ok p := by
  have hfield : (libraryValue code).field "code" = .ok (.bytes code) := by
    simp [libraryValue, Value.field, Value.feature?]
  have hrecord : libraryCodec.write (libraryValue code) =
      writeFields [("code", .bytes .shortNonempty (some "LibCode"))] (libraryValue code) :=
    write_record
  rw [hrecord, writeFields, writeFields, hfield]
  simp [bind_eq_ok]

/-- A byte string is written as the code of a script library. -/
theorem write_libraryBytes {code p : Octets} :
    libraryCodec.write (.bytes code) = .ok p ↔
      (Codec.bytes .shortNonempty (some "LibCode")).write (.bytes code) = .ok p := by
  have hbare : libraryCodec.write (.bytes code) =
      writeBare [("code", .bytes .shortNonempty (some "LibCode"))] (.bytes code) := by
    rw [libraryCodec, write]
    simp [accepts]
  rw [hbare, writeBare, inside_eq_ok]

/-- The codec of script libraries is canonical. -/
@[simp] theorem canonical_libraryCodec : Canonical libraryCodec where
  write_eq_ok := by
    intro v p h
    obtain ⟨code, rfl, hp⟩ := encodes_libraryCodec_iff.1 h
    exact write_libraryValue.2 ((canonical_bytes _ _).write_eq_ok hp)
  separates := by
    intro v w p q hv hw h
    obtain ⟨code, rfl, hp⟩ := encodes_libraryCodec_iff.1 hv
    obtain ⟨code', rfl, hq⟩ := encodes_libraryCodec_iff.1 hw
    have hoctets := h.octets_left rfl
    simp only [libraryValue, Value.octets?, Option.some.injEq] at hoctets
    subst hoctets
    exact (canonical_bytes _ _).separates hp hq (.refl _)

/-- Script libraries are told apart by their codes. -/
@[simp] theorem keyed_libraryCodec : Keyed libraryCodec where
  isKey := by
    intro v p h
    obtain ⟨code, rfl, -⟩ := encodes_libraryCodec_iff.1 h
    rfl
  hasLabel := by
    intro v p h
    obtain ⟨code, rfl, -⟩ := encodes_libraryCodec_iff.1 h
    exact ⟨_, rfl⟩
  apart := by
    intro v w p q hv hw h
    obtain ⟨code, rfl, hp⟩ := encodes_libraryCodec_iff.1 hv
    obtain ⟨code', rfl, hq⟩ := encodes_libraryCodec_iff.1 hw
    have hsame : code' = code := by
      simpa [libraryValue, Value.same, Value.witnessed?, Value.octets?] using h
    subst hsame
    exact (canonical_bytes _ _).separates hp hq (.refl _)

/-- A byte string is recovered as the record of the script library with this code. -/
theorem recovers_libraryBytes (code : Octets) : Recovers libraryCodec (.bytes code) := by
  intro p hp
  obtain ⟨v, hv, halike⟩ := recovers_bytes _ _ _ p (write_libraryBytes.1 hp)
  obtain ⟨code', rfl⟩ := reads_bytes _ _ _ ⟨p, hv⟩
  exact ⟨libraryValue code', encodes_libraryCodec_iff.2 ⟨code', rfl, hv⟩,
    .octets rfl (halike.octets_left rfl)⟩

theorem reads_libraryCodec : Reads libraryCodec libraryValue := by
  rintro v ⟨p, hv⟩
  obtain ⟨code, rfl, -⟩ := encodes_libraryCodec_iff.1 hv
  exact ⟨code, rfl⟩

/-! ## Consignments -/

/-- The codec of terminals. -/
def terminalsCodec : Codec :=
  .map (.id .bundle) (.set (.id .secretSeal) .tinyNonempty .members none) .short .mapping none

/-- The value of the seals of a terminal. -/
def sealsValue (seals : List SecretSeal) : Value := .set (seals.map (.id .secretSeal))

/-- The record of a consignment as it is read, with records of its script libraries. -/
def readValue (c : Consignment) : Value :=
  .record "Consignment"
    [("version", c.version), ("transfer", c.transfer),
     ("terminals", c.terminals.mapping (.id .bundle) sealsValue),
     ("genesis", c.genesis.toValue), ("bundles", .tuple (c.bundles.map WitnessBundle.toValue)),
     ("schema", c.schema.toValue), ("types", c.types.toValue),
     ("scripts", .set (c.scripts.map libraryValue))]

/-- The codec of consignments is canonical. -/
@[simp] theorem canonical_codec : Canonical codec := by
  have hterminals : Canonical terminalsCodec := by simp [terminalsCodec]
  have hversion : Canonical (.enumeration versions) :=
    canonical_enumeration (by simp [Enumeration.lacks, Enumeration.attribute?, versions])
  refine canonical_record (by decide) (by decide) ?_
  simp only [List.forall_mem_cons, List.not_mem_nil, false_implies, implies_true, and_true]
  exact ⟨hversion, canonical_bool, hterminals, Genesis.canonical_codec,
    canonical_list WitnessBundle.canonical_codec _ _, Schema.canonical_codec,
    TypeSystem.canonical_codec, canonical_set canonical_libraryCodec keyed_libraryCodec _ _⟩

/-- The type systems that are read are well formed. -/
theorem reads_types : Reads TypeSystem.codec
    fun ts : { ts : TypeSystem // ts.WellFormed } => ts.1.toValue := by
  rintro v ⟨p, hv⟩
  obtain ⟨ts, hts, -, rfl, -⟩ := TypeSystem.encodes_codec_iff.1 hv
  exact ⟨⟨ts, hts⟩, rfl⟩

/-- The codec of consignments reads records of consignments with well-formed type systems. -/
theorem reads_codec {v : Value} (hv : codec.Readable v) :
    ∃ c : Consignment, c.types.WellFormed ∧ c.readValue = v := by
  simp only [codec, readable_record, readableFields_cons, readableFields_nil] at hv
  obtain ⟨_, ⟨version, _, _, ⟨transfer, _, _, ⟨terminals, hterminals, _, ⟨genesis, hgenesis, _,
    ⟨bundles, hbundles, _, ⟨schema, hschema, _, ⟨types, htypes, _, ⟨scripts, hscripts, _, rfl, rfl⟩,
    rfl⟩, rfl⟩, rfl⟩, rfl⟩, rfl⟩, rfl⟩, rfl⟩, rfl⟩ := hv
  obtain ⟨terminals, rfl⟩ := reads_mapping (canonical_id _) (keyed_id _) (reads_id _)
    (reads_set (keyed_id _) (reads_id _) _ _) _ _ _ hterminals
  obtain ⟨genesis, rfl⟩ := Genesis.reads_codec _ hgenesis
  obtain ⟨bundles, rfl⟩ := reads_list WitnessBundle.reads_codec _ _ _ hbundles
  obtain ⟨schema, rfl⟩ := Schema.reads_codec _ hschema
  obtain ⟨types, rfl⟩ := reads_types _ htypes
  obtain ⟨scripts, rfl⟩ := reads_set keyed_libraryCodec reads_libraryCodec _ _ _ hscripts
  exact ⟨⟨version, transfer, terminals, genesis, bundles, schema, types, scripts⟩, types.2, rfl⟩

/-- The record of a consignment as it is read gives the consignment back. -/
theorem ofValue?_readValue {c : Consignment} (hc : c.types.WellFormed) :
    ofValue? c.readValue = some c := by
  have hterminals := mapM_map_eq_some
    (f := fun e : BundleId × List SecretSeal => (Value.id .bundle e.1, sealsValue e.2))
    (h := fun e : Value × Value => do
      return (← e.1.id? .bundle, ← (← e.2.sequence?).mapM (Value.id? .secretSeal)))
    (by simp [sealsValue, Value.sequence?, mapM_eq_some_self]) c.terminals.entries
  have hscripts := mapM_map_eq_some (f := libraryValue)
    (h := fun x => do (← x.part? "code").octets?) (by simp [libraryValue, Value.octets?]) c.scripts
  have hbundles := mapM_map_eq_some WitnessBundle.ofValue?_toValue c.bundles
  have hset : ∀ items, (Value.set items).sequence? = some items := fun _ => rfl
  have htuple : ∀ items, (Value.tuple items).sequence? = some items := fun _ => rfl
  simp only [Option.bind_eq_bind, Option.pure_def] at hterminals hscripts
  simp only [ofValue?, readValue, Table.mapping, Value.part?_record, List.lookup_cons,
    String.reduceBEq, beq_self_eq_true, Option.bind_eq_bind, Option.bind_some, Option.pure_def,
    Value.entries?, hset, htuple, hterminals, hscripts, hbundles, Genesis.ofValue?_toValue,
    Schema.ofValue?_toValue, TypeSystem.ofRecord?_toValue hc.normal, Table.ofList_entries]

/-- A consignment is written like the record that is read for it. -/
theorem encode_eq_ok {c : Consignment} {p : Octets} :
    c.encode = .ok p ↔ codec.write c.readValue = .ok p := by
  rw [encode, toValue, readValue, codec, write_record, write_record]
  refine writeFields_congr ?_
  have hscripts := fun p => @write_set_map_congr _ _ .bytes libraryValue
    (fun code p => write_libraryBytes.trans (@write_libraryValue code p).symm) c.scripts .tiny
    .members none p
  simp only [List.forall_mem_cons, List.not_mem_nil, false_implies, implies_true, and_true]
  exact ⟨fun _ => Iff.rfl, fun _ => Iff.rfl, fun _ => Iff.rfl, fun _ => Iff.rfl, fun _ => Iff.rfl,
    fun _ => Iff.rfl, fun _ => Iff.rfl, hscripts⟩

/-- The records of a consignment as it is written and as it is read are alike. -/
theorem alike_readValue (c : Consignment) : c.toValue.Alike c.readValue := by
  have hscripts : Value.Alike (.set (c.scripts.map .bytes)) (.set (c.scripts.map libraryValue)) := by
    refine @Value.Alike.set _ _ (c.scripts.map fun code => (.bytes code, libraryValue code)) ?_ ?_
      (List.forall_mem_map.2 fun code _ => .octets rfl rfl)
    · simp [Function.comp_def]
    · simp [Function.comp_def]
  rw [toValue, readValue, Value.Alike.record_iff (by decide)]
  exact ⟨rfl, ⟨rfl, .refl _, rfl, .refl _, rfl, .refl _, rfl, .refl _, rfl, .refl _, rfl, .refl _,
    rfl, .refl _, rfl, hscripts, trivial⟩⟩

/-- Consignments with a regular schema and a well-formed type system are recovered. -/
theorem recovers_codec {c : Consignment} (hschema : c.schema.Regular) (htypes : c.types.WellFormed) :
    Recovers codec c.toValue := by
  have hversion : ∀ v, Recovers (.enumeration versions) v := fun v =>
    recovers_enumeration (by simp [versions]) v
  have hterminals : Recovers terminalsCodec (c.terminals.mapping (.id .bundle) sealsValue) :=
    recovers_mapping (keyed_id _) (recovers_id _ <| .id _ ·)
      (fun e _ => recovers_set_map (keyed_id _) (recovers_id _ <| .id _ ·) e.2) _ _
  have hscripts : Recovers (.set libraryCodec .tiny .members none) (.set (c.scripts.map .bytes)) :=
    recovers_set_map keyed_libraryCodec recovers_libraryBytes c.scripts
  refine recovers_record (by decide) (by decide) ?_
  exact ⟨rfl, hversion _, rfl, recovers_bool _, rfl, hterminals, rfl, Genesis.recovers_codec _, rfl,
    recovers_list_map WitnessBundle.recovers_codec _, rfl, hschema.recovers, rfl, htypes.recovers, rfl,
    hscripts, trivial⟩

/-- A byte string is decoded as the consignment of which the record is read from it. -/
theorem decode_eq_ok {p : Octets} {c : Consignment} :
    decode p = .ok c ↔ c.types.WellFormed ∧ codec.Encodes c.readValue p := by
  rw [decode, bind_eq_ok]
  constructor
  · rintro ⟨v, hv, h⟩
    have hencodes := Codec.decode_eq_ok.1 hv
    obtain ⟨c', hc', rfl⟩ := reads_codec ⟨p, hencodes⟩
    rw [ofValue?_readValue hc'] at h
    cases h
    exact ⟨hc', hencodes⟩
  · rintro ⟨hc, hencodes⟩
    refine ⟨_, Codec.decode_eq_ok.2 hencodes, ?_⟩
    rw [ofValue?_readValue hc]
    rfl

/-- A decoded consignment is encoded as the bytes it came from. -/
theorem encode_of_decode {c : Consignment} {octets : Octets} (h : decode octets = .ok c) :
    c.encode = .ok octets :=
  encode_eq_ok.2 (canonical_codec.write_eq_ok (decode_eq_ok.1 h).2)

/-- An encoded consignment is decoded from its bytes, up to the order of sets and mappings. -/
theorem exists_decode_of_encode {c : Consignment} (hschema : c.schema.Regular)
    (htypes : c.types.WellFormed) {octets : Octets} (h : c.encode = .ok octets) :
    ∃ c', decode octets = .ok c' ∧ c.toValue.Alike c'.toValue := by
  obtain ⟨v, hv, halike⟩ := recovers_codec hschema htypes octets h
  obtain ⟨c', hc', rfl⟩ := reads_codec ⟨octets, hv⟩
  exact ⟨c', decode_eq_ok.2 ⟨hc', hv⟩, halike.trans c'.alike_readValue.symm⟩

/-- Alike consignments are decoded from the same bytes only. -/
theorem octets_eq_of_alike {c₁ c₂ : Consignment} {octets₁ octets₂ : Octets}
    (h₁ : decode octets₁ = .ok c₁) (h₂ : decode octets₂ = .ok c₂)
    (h : c₁.toValue.Alike c₂.toValue) : octets₁ = octets₂ := by
  refine canonical_codec.separates (decode_eq_ok.1 h₁).2 (decode_eq_ok.1 h₂).2 ?_
  exact (c₁.alike_readValue.symm.trans h).trans c₂.alike_readValue

/-! ### The smallest consignment -/

/-- The identifier of zeros. -/
def zeroId (kind : IdKind) : Id kind := ⟨List.replicate 32 0, rfl⟩

/-- The seal of the first output of the transaction of zeros. -/
def zeroSeal : Seal := ⟨some (zeroId .transaction), .int 0, .int 0⟩

/-- A genesis that sets nothing. -/
def smallestGenesis (schemaId : SchemaId) : Genesis where
  schemaId
  timestamp := .int 0
  issuer := .text "a"
  chainNet := .member chainNet "BitcoinMainnet" 0
  closingStrategy := .member sealClosingStrategy "FirstOpretOrTapret" 0
  state := ⟨.empty, .empty, .empty⟩

/-- A schema that declares nothing. -/
def smallestSchema : Schema where
  name := .text "S"
  metaTypes := .empty
  globalTypes := .empty
  ownedTypes := .empty
  genesis := ⟨.empty, .empty, none, .empty, none⟩
  transitions := .empty

/-- A consignment of a genesis that sets nothing, without bundles, types and script libraries. -/
def smallest (schemaId : SchemaId) : Consignment where
  version := .member versions "V0" 0
  transfer := .bool false
  terminals := .empty
  genesis := smallestGenesis schemaId
  bundles := []
  schema := smallestSchema
  types := .empty
  scripts := []

theorem write_smallestTimestamp : (Codec.sint 8).write (.int 0) = .ok (List.replicate 8 0) := by
  rw [write]
  rfl

theorem write_smallestIssuer : Genesis.issuerCodec.write (.text "a") = .ok [1, 0, 97] := by
  rw [Genesis.issuerCodec, write]
  rfl

theorem write_bitcoinMainnet : (Codec.enumeration chainNet).write
    (.member chainNet "BitcoinMainnet" 0) = .ok [0] := by
  rw [write]
  rfl

theorem write_firstOpretOrTapret : (Codec.enumeration sealClosingStrategy).write
    (.member sealClosingStrategy "FirstOpretOrTapret" 0) = .ok [0] := by
  rw [write]
  rfl

theorem written_smallestName : Schema.schemaName.Written (.text "S") :=
  ⟨[83, 0], by rw [Schema.schemaName, write]; rfl⟩

theorem written_noValidator : (Codec.option LibSite.codec).Written .null := ⟨[0], by rw [write]⟩

theorem written_version : (Codec.enumeration versions).Written (.member versions "V0" 0) :=
  ⟨[0], by rw [write]; rfl⟩

theorem written_noTransfer : Codec.bool.Written (.bool false) := ⟨[0], by rw [write]; rfl⟩

theorem written_noTypes : TypeSystem.codec.Written TypeSystem.empty.toValue := by
  obtain ⟨p, hp, -⟩ := TypeSystem.wellFormed_empty.exists_decode
  exact ⟨p, hp⟩

/-- A schema that declares nothing has canonical bytes. -/
theorem exists_encode_smallestSchema : ∃ octets, smallestSchema.encode = .ok octets := by
  refine (written_record_iff (by decide) rfl).2 ⟨written_smallestName, written_mapping_nil rfl,
    written_mapping_nil rfl, written_mapping_nil rfl, ?_, written_mapping_nil rfl, trivial⟩
  exact (written_record_iff (by decide) rfl).2 ⟨written_mapping_nil rfl, written_mapping_nil rfl,
    written_mapping_nil rfl, written_noValidator, trivial⟩

/-! ### Rights that are handed over -/

/-- Any number of rights. -/
def anyRights : Table Int Occurrences := ⟨[(0, .noOrMore)], by decide⟩

/-- A schema of rights: a genesis grants them, and transitions pass them on. -/
def rightsSchema : Schema :=
  { smallestSchema with
    ownedTypes := ⟨[(0, ⟨.declarative, .text "a"⟩)], by decide⟩
    genesis := ⟨.empty, .empty, none, anyRights, none⟩
    transitions := ⟨[(0, ⟨⟨.empty, .empty, some anyRights, anyRights, none⟩, .text "t"⟩)], by decide⟩ }

/-- The state of an operation that assigns rights. -/
def rights (items : List Assignment) : OperationState where
  metadata := .empty
  globals := .empty
  assignments := ⟨[(0, ⟨.declarative, items⟩)], by simp⟩

/-- A genesis that grants two rights. -/
def granting (schemaId : SchemaId) : Genesis :=
  let right : Assignment := .revealed zeroSeal .null
  { smallestGenesis schemaId with state := rights [right, right] }

/-- A transition that passes a right of the genesis on to a concealed seal. -/
def passing (genesis : OpId) (index : Int) (secret : SecretSeal) : Transition where
  contractId := genesis.cast .contract
  type := .int 0
  nonce := .int 0
  inputs := [⟨genesis, 0, index⟩]
  state := rights [.confidential secret .null]

/-- The inputs of the bundle of two transitions that pass on one right each. -/
def inputsOf (genesis first second : OpId) : Table Opout OpId :=
  ⟨[(⟨genesis, 0, 0⟩, first), (⟨genesis, 0, 1⟩, second)], by simp⟩

/-- A **view** of the bundle: one of its transitions. -/
structure View (genesis first second : OpId) where
  index : Int
  secret : SecretSeal
  id : OpId
  number : index = 0 ∨ index = 1
  carried : (passing genesis index secret).opId = .ok id
  mapped : (⟨genesis, 0, index⟩, id) ∈ (inputsOf genesis first second).entries

/-- The bundle of which only a view is known. -/
def View.toBundle {genesis first second : OpId} (v : View genesis first second) : WitnessBundle where
  witness := .txid (zeroId .transaction)
  bundle := ⟨inputsOf genesis first second, ⟨[(v.id, passing genesis v.index v.secret)], by simp⟩⟩

/-- A consignment of rights that hands over the seal of a bundle. -/
def handing (schemaId : SchemaId) (bundles : List WitnessBundle) (bundle : BundleId)
    (secret : SecretSeal) : Consignment :=
  { smallest schemaId with
    genesis := granting schemaId
    bundles := bundles
    schema := rightsSchema
    terminals := ⟨[(bundle, [secret])], by simp⟩ }

variable {schemaId : SchemaId} {genesis first second : OpId} {index : Int} {secret : SecretSeal}
  {bundle : BundleId}

theorem written_index (h : index = 0 ∨ index = 1) : (Codec.uint 2).Written (.int index) := by
  rcases h with rfl | rfl
  · exact ⟨[0, 0], by rw [write]; rfl⟩
  · exact ⟨[1, 0], by rw [write]; rfl⟩

theorem written_zero : (Codec.uint 2).Written (.int 0) := written_index (.inl rfl)

theorem written_void : (StateKind.codec .declarative).Written .null :=
  ⟨[], by rw [StateKind.codec, write]⟩

theorem written_rights {items : List Assignment}
    (hn : Bounds.shortNonempty.admits items.length = true)
    (hitems : ∀ a ∈ items, (Assignment.codec .declarative).Written a.toValue) :
    OperationState.assignmentsCodec.Written (rights items).assignmentsValue := by
  have hlist : (Codec.list (Assignment.codec .declarative) .shortNonempty none).Written
      (.tuple (items.map Assignment.toValue)) :=
    written_list_iff.2 ⟨by rwa [List.length_map], List.forall_mem_map.2 hitems⟩
  refine written_mapping_singleton rfl written_zero ?_
  exact written_union Assignments.recordVariants (List.mem_cons_self ..) rfl
    ((written_record_iff (by decide) rfl).2 ⟨hlist, trivial⟩)

theorem written_granting : Genesis.codec.Written (granting schemaId).toValue := by
  have htxid : (Codec.option (.id .transaction)).Written (.id .transaction (zeroId .transaction)) :=
    ⟨_, by rw [write, write_id] <;> first | rfl | nofun⟩
  have hvout : (Codec.uint 4).Written (.int 0) := ⟨List.replicate 4 0, by rw [write]; rfl⟩
  have hblinding : (Codec.uint 8).Written (.int 0) := ⟨List.replicate 8 0, by rw [write]; rfl⟩
  have hright : (Assignment.codec .declarative).Written
      (Assignment.revealed zeroSeal .null).toValue := by
    refine written_union (Assignment.recordVariants _) (List.mem_cons_of_mem _ (List.mem_cons_self ..))
      rfl ((written_record_iff (by decide) rfl).2 ⟨?_, written_void, trivial⟩)
    exact (written_record_iff (by decide) rfl).2 ⟨htxid, hvout, hblinding, trivial⟩
  refine (written_record_iff (by decide) rfl).2 ⟨written_id .., ⟨_, write_smallestTimestamp⟩,
    ⟨_, write_smallestIssuer⟩, ⟨_, write_bitcoinMainnet⟩, ⟨_, write_firstOpretOrTapret⟩,
    written_mapping_nil rfl, written_mapping_nil rfl, written_rights rfl ?_, trivial⟩
  exact List.forall_mem_cons.2 ⟨hright, List.forall_mem_singleton.2 hright⟩

theorem written_opout (h : index = 0 ∨ index = 1) :
    Opout.codec.Written (Opout.mk genesis 0 index).toValue :=
  (written_record_iff (by decide) rfl).2 ⟨written_id .., written_zero, written_index h, trivial⟩

theorem written_passing (h : index = 0 ∨ index = 1) :
    Transition.codec.Written (passing genesis index secret).toValue := by
  have hnonce : (Codec.uint 8).Written (.int 0) := ⟨List.replicate 8 0, by rw [write]; rfl⟩
  have hinputs : (Codec.set Opout.codec .shortNonempty .members (some "Inputs")).Written
      (.set [(Opout.mk genesis 0 index).toValue]) :=
    written_set_singleton rfl (written_opout h)
  have hright : (Assignment.codec .declarative).Written (Assignment.confidential secret .null).toValue :=
    written_union (Assignment.recordVariants _) (List.mem_cons_self ..) rfl
      ((written_record_iff (by decide) rfl).2 ⟨written_id .., written_void, trivial⟩)
  exact (written_record_iff (by decide) rfl).2 ⟨written_id .., written_zero, hnonce,
    written_mapping_nil rfl, written_mapping_nil rfl, hinputs,
    written_rights rfl (List.forall_mem_singleton.2 hright), trivial⟩

/-- The two inputs have encodings, different ones. -/
theorem written_inputsOf (v : View genesis first second) :
    Bundle.inputMapCodec.Written v.toBundle.bundle.inputMapValue := by
  have hzero : Opout.codec.Written (Opout.mk genesis 0 0).toValue := written_opout (.inl rfl)
  have hone : Opout.codec.Written (Opout.mk genesis 0 1).toValue := written_opout (.inr rfl)
  refine written_mapping rfl ?_ (List.pairwise_pair.2 fun heq => ?_)
  · exact List.forall_mem_cons.2 ⟨⟨hzero, written_id ..⟩,
      List.forall_mem_singleton.2 ⟨hone, written_id ..⟩⟩
  · obtain ⟨p, hp⟩ := hzero
    cases Opout.eq_of_write hp (heq ▸ hp)

/-- A bundle under the id of its witness has an encoding when its parts have. -/
theorem written_witnessed {txid : Txid} {b : Bundle}
    (hinputs : Bundle.inputMapCodec.Written b.inputMapValue)
    (hknown : (Codec.map (.id .operation) Transition.codec .shortNonempty .mapping none).Written
      (.map (b.known.entries.map fun e => (.id .operation e.1, e.2.toValue)))) :
    WitnessBundle.codec.Written (WitnessBundle.mk (.txid txid) b).toValue := by
  refine (written_record_iff (by decide) rfl).2 ⟨?_, ?_, trivial⟩
  · exact written_union Witness.recordVariants (List.mem_cons_self ..) rfl
      ((written_record_iff (by decide) rfl).2 ⟨written_id .., trivial⟩)
  · exact (written_record_iff (by decide) rfl).2 ⟨hinputs, hknown, trivial⟩

theorem written_view (v : View genesis first second) :
    WitnessBundle.codec.Written v.toBundle.toValue :=
  written_witnessed (written_inputsOf v)
    (written_mapping_singleton rfl (written_id ..) (written_passing v.number))

theorem written_anyRights :
    Occurrences.tableCodec.Written (.map [(.int 0, Occurrences.noOrMore.toValue)]) := by
  have hmost : (Codec.uint 2).Written (.int 0xffff) := ⟨[255, 255], by rw [write]; rfl⟩
  exact written_mapping_singleton rfl written_zero
    ((written_record_iff (by decide) rfl).2 ⟨written_zero, hmost, trivial⟩)

/-- The types of rights of a schema have an encoding. -/
theorem written_ownedRights : (Schema.byType Schema.ownedCodec).Written
    (.map [(.int 0, (OwnedDetails.mk .declarative (.text "a")).toValue)]) := by
  have hname : Schema.fieldName.Written (.text "a") := ⟨_, by rw [Schema.fieldName, write]; rfl⟩
  have hdeclarative : StateSchema.codec.Written StateSchema.declarative.toValue :=
    written_union StateSchema.recordVariants (List.mem_cons_self ..) rfl
      ((written_record_iff (by decide) rfl).2 trivial)
  exact written_mapping_singleton rfl written_zero
    ((written_record_iff (by decide) rfl).2 ⟨hdeclarative, hname, trivial⟩)

theorem written_rightsSchema : Schema.codec.Written rightsSchema.toValue := by
  have htransition : Schema.fieldName.Written (.text "t") := ⟨_, by rw [Schema.fieldName, write]; rfl⟩
  refine (written_record_iff (by decide) rfl).2 ⟨written_smallestName, written_mapping_nil rfl,
    written_mapping_nil rfl, written_ownedRights, ?_, written_mapping_singleton rfl written_zero ?_,
    trivial⟩
  · exact (written_record_iff (by decide) rfl).2
      ⟨written_mapping_nil rfl, written_mapping_nil rfl, written_anyRights, written_noValidator, trivial⟩
  · refine (written_record_iff (by decide) rfl).2 ⟨?_, htransition, trivial⟩
    exact (written_record_iff (by decide) rfl).2 ⟨written_mapping_nil rfl,
      written_mapping_nil rfl, written_anyRights, written_anyRights, written_noValidator, trivial⟩

/-- A consignment that hands over the seal of a bundle has an encoding, with any types that have one. -/
theorem written_handing {views : List (View genesis first second)} {types : TypeSystem}
    (hlength : views.length ≤ 0xffffff) (htypes : TypeSystem.codec.Written types.toValue) :
    codec.Written ({ handing schemaId (views.map View.toBundle) bundle secret with
      types := types } : Consignment).toValue := by
  have hseals : (Codec.set (.id .secretSeal) .tinyNonempty .members none).Written
      (.set [.id .secretSeal secret]) :=
    written_set_singleton rfl (written_id ..)
  have hlist : (Codec.list WitnessBundle.codec { min := 0, max := 0xffffff } none).Written
      (.tuple ((views.map View.toBundle).map WitnessBundle.toValue)) := by
    refine written_list_iff.2 ⟨?_, ?_⟩
    · simpa [Bounds.admits] using hlength
    · exact List.forall_mem_map.2 (List.forall_mem_map.2 fun v _ => written_view v)
  exact (written_record_iff (by decide) rfl).2 ⟨written_version, written_noTransfer,
    written_mapping_singleton rfl (written_id ..) hseals, written_granting, hlist, written_rightsSchema,
    htypes, ⟨_, write_set_nil rfl⟩, trivial⟩

/-- The view of the transition that passes on the first right. -/
def View.ofFirst (h : (passing genesis 0 secret).opId = .ok first) : View genesis first second :=
  ⟨0, secret, first, .inl rfl, h, List.mem_cons_self ..⟩

/-- The view of the transition that passes on the second right. -/
def View.ofSecond (h : (passing genesis 1 secret).opId = .ok second) : View genesis first second :=
  ⟨1, secret, second, .inr rfl, h, List.mem_cons_of_mem _ (List.mem_cons_self ..)⟩

/-- The bundles of the two views reveal different transitions. -/
theorem View.toBundle_ne {v w : View genesis first second} (h : v.index ≠ w.index) :
    v.toBundle ≠ w.toBundle := by
  intro heq
  have hinputs := congrArg (fun x => x.bundle.known.entries.map fun e => e.2.inputs) heq
  simp [toBundle, passing, h] at hinputs

/-- The transitions that pass on the rights of a genesis to any two seals have identifiers. -/
theorem exists_passing (s t : SecretSeal) : ∃ (schemaId : SchemaId) (genesis first second : OpId),
    rightsSchema.schemaId = .ok schemaId ∧
      (Operation.genesis (granting schemaId)).opId = .ok genesis ∧
      (passing genesis 0 s).opId = .ok first ∧ (passing genesis 1 t).opId = .ok second := by
  obtain ⟨schemaId, hschema⟩ := exists_made (f := Id.ofContent .schema) |>.2 written_rightsSchema
  obtain ⟨q, hq⟩ := @written_granting schemaId
  obtain ⟨genesis, hgenesis⟩ := exists_made (f := Id.ofContent .operation) |>.2
    ⟨_, Operation.encode_genesis_eq_ok.2 ⟨q, hq, rfl⟩⟩
  have hpassing : ∀ index secret, index = 0 ∨ index = 1 →
      ∃ id, (passing genesis index secret).opId = .ok id := by
    intro index secret hindex
    obtain ⟨q, hq⟩ := @written_passing genesis index secret hindex
    exact exists_made.2 ⟨_, Operation.encode_transition_eq_ok.2 ⟨q, hq, rfl⟩⟩
  obtain ⟨first, hfirst⟩ := hpassing 0 s (.inl rfl)
  obtain ⟨second, hsecond⟩ := hpassing 1 t (.inr rfl)
  exact ⟨schemaId, genesis, first, second, hschema, hgenesis, hfirst, hsecond⟩

/-! ### One encoding -/

/-- The format of consignments is canonical in both directions: decoding and encoding gives the same
bytes, and encoding and decoding gives the same consignment, if its schema is regular and its type
system reachable. So alike consignments have no two accepted encodings, and consignments with one
encoding are alike. -/
theorem encoding_canonical :
    (∀ (octets : Octets) (c : Consignment), decode octets = .ok c → c.encode = .ok octets) ∧
    (∀ (c : Consignment) (octets : Octets), c.schema.Regular → TypeSystem.Reachable c.types →
      c.encode = .ok octets → ∃ c', decode octets = .ok c' ∧ c.toValue.Alike c'.toValue) ∧
    (∀ (c₁ c₂ : Consignment) (octets₁ octets₂ : Octets), decode octets₁ = .ok c₁ →
      decode octets₂ = .ok c₂ → c₁.toValue.Alike c₂.toValue → octets₁ = octets₂) ∧
    (∀ (c₁ c₂ : Consignment) (octets : Octets),
      c₁.schema.Regular → TypeSystem.Reachable c₁.types → c₁.encode = .ok octets →
      c₂.schema.Regular → TypeSystem.Reachable c₂.types → c₂.encode = .ok octets →
      c₁.toValue.Alike c₂.toValue) := by
  refine ⟨fun octets c => encode_of_decode, ?_, fun c₁ c₂ octets₁ octets₂ => octets_eq_of_alike, ?_⟩
  · intro c octets hschema htypes hencode
    exact exists_decode_of_encode hschema htypes.wellFormed hencode
  · intro c₁ c₂ octets hschema₁ htypes₁ h₁ hschema₂ htypes₂ h₂
    -- both are alike to the consignment that is decoded from the bytes
    obtain ⟨c, hc, halike₁⟩ := exists_decode_of_encode hschema₁ htypes₁.wellFormed h₁
    obtain ⟨c', hc', halike₂⟩ := exists_decode_of_encode hschema₂ htypes₂.wellFormed h₂
    obtain rfl : c = c' := Except.ok.inj (hc.symm.trans hc')
    exact halike₁.trans halike₂.symm

/-- A consignment with two views of a bundle, the types of lists of truth values and a terminal is decoded
from its bytes. -/
theorem encoding_canonical_views : ∃ (c c' : Consignment) (v w : WitnessBundle) (sid : SemId)
    (octets : Octets), c.bundles = [v, w] ∧ v ≠ w ∧ c.types.contains sid = true ∧
      c.terminals.entries ≠ [] ∧ c.encode = .ok octets ∧ decode octets = .ok c' ∧
        c'.encode = .ok octets ∧ c.toValue.Alike c'.toValue := by
  obtain ⟨schemaId, genesis, first, second, -, -, hfirst, hsecond⟩ :=
    exists_passing (zeroId .secretSeal) (zeroId .secretSeal)
  let v : View genesis first second := .ofFirst hfirst
  let w : View genesis first second := .ofSecond hsecond
  obtain ⟨sid, types, hderive, -⟩ :=
    TypeSystem.exists_derive_list TypeSystem.derive_bool_empty (by decide) .tiny none
  have htypes : types.Reachable := by
    have hreachable := TypeSystem.Reachable.derive (.list .bool .tiny none) .empty
    rwa [hderive] at hreachable
  obtain ⟨p, hp, -⟩ := htypes.wellFormed.exists_decode
  let c : Consignment :=
    { handing schemaId ([v, w].map View.toBundle) (zeroId .bundle) (zeroId .secretSeal) with
      types := types }
  obtain ⟨octets, hencode⟩ : ∃ octets, c.encode = .ok octets :=
    written_handing (Nat.le_of_ble_eq_true rfl) ⟨p, hp⟩
  have hregular : rightsSchema.Regular := ⟨rfl, List.forall_mem_singleton.2 rfl⟩
  obtain ⟨hforth, hback, -, -⟩ := encoding_canonical
  obtain ⟨c', hdecode, halike⟩ := hback c octets hregular htypes hencode
  have hne : v.toBundle ≠ w.toBundle := View.toBundle_ne Int.zero_ne_one
  exact ⟨c, c', _, _, sid, octets, rfl, hne, TypeSystem.contains_of_derive hderive,
    List.cons_ne_nil _ _, hencode, hdecode, hforth octets c' hdecode, halike⟩

end Consignment

end StrictContract
