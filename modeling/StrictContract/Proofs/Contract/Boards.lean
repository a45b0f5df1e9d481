import StrictContract.Proofs.Contract.Chronicle
import StrictContract.Proofs.Contract.Returning
import StrictContract.Proofs.Contract.Views

/-! # Boards — one transition under any witnesses

A **post** is a transition that passes a right of the genesis on to an output of its witness and sets an
item of global state. A **board** carries posts, each in a bundle of its own under a given witness. Any
list of posts, also with repetitions, makes a board that is accepted, so boards show what depends on the
order and on the witnesses in which a state learns of transitions. -/

namespace StrictContract

open Codec

namespace Consignment

/-- The type system of the type that holds nothing. -/
def unitTypes : TypeSystem := ⟨[(Id.ofContent .sem unitOctets, .primitive 0)]⟩

/-- Operations that assign rights and set global state. -/
def boardShape (inputs : Option (Table Int Occurrences)) : OperationSchema :=
  ⟨.empty, anyRights, inputs, anyRights, none⟩

/-- A schema of rights whose operations may **post** items that hold nothing, of which two count. -/
def boardSchema : Schema :=
  { rightsSchema with
    globalTypes := ⟨[(0, ⟨Id.ofContent .sem unitOctets, 2, .text "g"⟩)], by decide⟩
    genesis := boardShape none
    transitions := ⟨[(0, ⟨boardShape (some anyRights), .text "t"⟩)], by decide⟩ }

/-- One posted item. -/
def posted : Table Int (List Value) := ⟨[(0, [.bytes []])], by decide⟩

/-- A transition that passes a right of the genesis on to the first output of its witness, and posts an
item. -/
def posting (genesis : OpId) (index : Int) : Transition :=
  { passing genesis index (zeroId .secretSeal) with
    state := { rights [.revealed (blindedSeal (.int 0)) .null] with globals := posted } }

/-- A **post**: a transition that posts an item, with its id. -/
structure Post (genesis : OpId) where
  index : Int
  id : OpId
  number : index = 0 ∨ index = 1
  carried : (posting genesis index).opId = .ok id

/-- The bundle of a post under a witness. -/
def Post.under {genesis : OpId} (a : Post genesis) (witness : Txid) : WitnessBundle where
  witness := .txid witness
  bundle := ⟨⟨[(⟨genesis, 0, a.index⟩, a.id)], by simp⟩, ⟨[(a.id, posting genesis a.index)], by simp⟩⟩

/-- A **board**: a consignment of posts under their witnesses. -/
def board {genesis : OpId} (schemaId : SchemaId) (posts : List (Post genesis × Txid)) : Consignment :=
  { smallest schemaId with
    genesis := granting schemaId
    bundles := posts.map fun a => a.1.under a.2
    schema := boardSchema
    types := unitTypes }

variable {schemaId : SchemaId} {genesis : OpId} {index : Int}

/-! ## Encoding -/

theorem written_posting (h : index = 0 ∨ index = 1) :
    Transition.codec.Written (posting genesis index).toValue := by
  have hnonce : (Codec.uint 8).Written (.int 0) := ⟨List.replicate 8 0, by rw [write]; rfl⟩
  have hvout : (Codec.uint 4).Written (.int 0) := ⟨List.replicate 4 0, by rw [write]; rfl⟩
  have htxid : (Codec.option (.id .transaction)).Written .null := ⟨[0], by rw [write]⟩
  have hseal : Seal.codec.Written (blindedSeal (.int 0)).toValue :=
    (written_record_iff (by decide) rfl).2 ⟨htxid, hvout, hnonce, trivial⟩
  have hright : (Assignment.codec .declarative).Written
      (Assignment.revealed (blindedSeal (.int 0)) .null).toValue :=
    written_union (Assignment.recordVariants _) (List.mem_cons_of_mem _ (List.mem_cons_self ..)) rfl
      ((written_record_iff (by decide) rfl).2 ⟨hseal, written_void, trivial⟩)
  have hitem : (Codec.bytes .short (some "DataState")).Written (.bytes []) := ⟨[0, 0], by rw [write]; rfl⟩
  have hposted : OperationState.globalsCodec.Written (.map [(.int 0, .tuple [.bytes []])]) :=
    written_mapping_singleton rfl written_zero
      (written_list_iff.2 ⟨rfl, List.forall_mem_singleton.2 hitem⟩)
  exact (written_record_iff (by decide) rfl).2 ⟨written_id .., written_zero, hnonce,
    written_mapping_nil rfl, hposted, written_set_singleton rfl (written_opout h),
    written_rights rfl (List.forall_mem_singleton.2 hright), trivial⟩

theorem written_under (a : Post genesis) (witness : Txid) :
    Bundle.inputMapCodec.Written (a.under witness).bundle.inputMapValue ∧
      WitnessBundle.codec.Written (a.under witness).toValue := by
  have hinputs : Bundle.inputMapCodec.Written (a.under witness).bundle.inputMapValue :=
    written_mapping_singleton rfl (written_opout a.number) (written_id ..)
  exact ⟨hinputs, written_witnessed hinputs
    (written_mapping_singleton rfl (written_id ..) (written_posting a.number))⟩

theorem written_boardSchema : Schema.codec.Written boardSchema.toValue := by
  have hglobal : Schema.fieldName.Written (.text "g") := ⟨_, by rw [Schema.fieldName, write]; rfl⟩
  have htransition : Schema.fieldName.Written (.text "t") := ⟨_, by rw [Schema.fieldName, write]; rfl⟩
  have htwo : (Codec.uint 2).Written (.int 2) := ⟨[2, 0], by rw [write]; rfl⟩
  have hany := written_anyRights
  refine (written_record_iff (by decide) rfl).2 ⟨written_smallestName, written_mapping_nil rfl,
    written_mapping_singleton rfl written_zero ?_, written_ownedRights, ?_,
    written_mapping_singleton rfl written_zero ?_, trivial⟩
  · exact (written_record_iff (by decide) rfl).2 ⟨written_id .., htwo, hglobal, trivial⟩
  · exact (written_record_iff (by decide) rfl).2
      ⟨written_mapping_nil rfl, hany, hany, written_noValidator, trivial⟩
  · refine (written_record_iff (by decide) rfl).2 ⟨?_, htransition, trivial⟩
    exact (written_record_iff (by decide) rfl).2
      ⟨written_mapping_nil rfl, hany, hany, hany, written_noValidator, trivial⟩

theorem written_unitTypes : TypeSystem.codec.Written unitTypes.toValue := by
  obtain ⟨p, hp, -⟩ := wellFormed_unit.exists_decode
  exact ⟨p, hp⟩

theorem written_board {posts : List (Post genesis × Txid)} (hlength : posts.length ≤ 0xffffff) :
    codec.Written (board schemaId posts).toValue := by
  have hlist : (Codec.list WitnessBundle.codec { min := 0, max := 0xffffff } none).Written
      (.tuple ((posts.map fun a => a.1.under a.2).map WitnessBundle.toValue)) := by
    refine written_list_iff.2 ⟨?_, ?_⟩
    · simpa [Bounds.admits] using hlength
    · exact List.forall_mem_map.2 (List.forall_mem_map.2 fun a _ => (written_under a.1 a.2).2)
  exact (written_record_iff (by decide) rfl).2 ⟨written_version, written_noTransfer,
    written_mapping_nil rfl, written_granting, hlist, written_boardSchema, written_unitTypes,
    ⟨_, write_set_nil rfl⟩, trivial⟩

/-! ## Consistency -/

/-- The item that is posted is one of its type. -/
theorem accepts_posted : unitTypes.Accepts (Id.ofContent .sem unitOctets) (.bytes []) := by
  have hget : unitTypes.get? (Id.ofContent .sem unitOctets) = some (.primitive 0) := by
    simp [TypeSystem.get?, unitTypes]
  have hcodec : unitTypes.codecOf (Id.ofContent .sem unitOctets) = .ok .unit :=
    TypeSystem.codecOf_eq_ok.2 ⟨1, bind_eq_ok.2 ⟨_, TypeSystem.find_eq_ok.2 hget, rfl⟩⟩
  refine ⟨TypeSystem.contains_of_codecOf hcodec, .null, ?_⟩
  rw [hcodec]
  rfl

/-- An operation that assigns rights and posts at most one item conforms to the shape of the board. -/
theorem conforms_board {o : Operation} {inputs : Option (Table Int Occurrences)}
    {items : List Assignment} {posts : Table Int (List Value)}
    (hstate : o.state = { rights items with globals := posts })
    (hposts : posts = .empty ∨ posts = posted) (hlength : items.length ≤ 0xffff)
    (hfits : ∀ a ∈ items, a.Fits o.isGenesis unitTypes .declarative)
    (hinputs : ∀ bounds, inputs = some bounds →
      (∀ input ∈ o.inputs, bounds.contains input.type = true ∧ input.type = 0) ∧
        ∀ e ∈ bounds.entries, e.2.admits (o.inputCount e.1) = true) :
    o.Conforms boardSchema unitTypes (boardShape inputs) where
  metadata := by rw [hstate]; exact List.forall_mem_nil _
  metadataCounts := List.forall_mem_nil _
  globals := by
    rw [hstate]
    rcases hposts with rfl | rfl
    · exact List.forall_mem_nil _
    · exact List.forall_mem_singleton.2 ⟨⟨Id.ofContent .sem unitOctets, 2, .text "g"⟩, rfl, rfl,
        by decide, List.forall_mem_singleton.2 accepts_posted⟩
  globalCounts := by
    rw [hstate]
    rcases hposts with rfl | rfl <;> exact List.forall_mem_singleton.2 rfl
  inputs bounds hbounds input hinput := by
    obtain ⟨hallowed, htype⟩ := (hinputs bounds hbounds).1 input hinput
    exact ⟨hallowed, htype ▸ rfl⟩
  inputCounts bounds hbounds := (hinputs bounds hbounds).2
  assignments := by
    rw [hstate]
    exact List.forall_mem_singleton.2 ⟨⟨.declarative, .text "a"⟩, rfl, rfl, rfl, hfits⟩
  assignmentCounts := by
    rw [hstate]
    refine List.forall_mem_singleton.2 (decide_eq_true ⟨Int.natCast_nonneg _, ?_⟩)
    exact Int.ofNat_le.2 hlength

theorem conformsTo_granting_board :
    (Operation.genesis (granting schemaId)).ConformsTo boardSchema unitTypes := by
  refine conforms_board rfl (.inl rfl) (by decide) ?_ nofun
  simp [Assignment.Fits, zeroSeal]

theorem conformsTo_posting :
    (Operation.transition (posting genesis index)).ConformsTo boardSchema unitTypes := by
  refine ⟨_, rfl, conforms_board rfl (.inr rfl) (Nat.le_of_ble_eq_true rfl) ?_ ?_⟩
  · simp [Assignment.Fits, Operation.isGenesis]
  · rintro _ ⟨⟩
    refine ⟨List.forall_mem_singleton.2 ⟨rfl, rfl⟩, List.forall_mem_singleton.2 ?_⟩
    rfl

theorem shapeViolations_board {path : String} {inputs : Option (Table Int Occurrences)}
    (hinputs : inputs = none ∨ inputs = some anyRights) :
    boardSchema.shapeViolations path (boardShape inputs) = [] := by
  have howned : boardSchema.ownedTypes.contains 0 = true := rfl
  have hglobal : boardSchema.globalTypes.contains 0 = true := rfl
  have hnone : ∀ (path what : String) (declared : Int → Bool),
      Schema.boundViolations path what .empty declared = [] := fun path what declared => by
    rw [Schema.boundViolations, Table.sorted_empty, List.flatMap_nil]
  rw [Schema.shapeViolations, boardShape, hnone, boundViolations_anyRights hglobal,
    boundViolations_anyRights howned]
  rcases hinputs with rfl | rfl
  · rfl
  · exact congrArg (· ++ []) (boundViolations_anyRights howned)

theorem passes_boardSchema : (boardSchema.validate unitTypes).Passes := by
  have htypes : boardSchema.unresolvedTypes unitTypes = [] := by
    have hcontains := accepts_posted.1
    simp only [Schema.unresolvedTypes, boardSchema, rightsSchema, smallestSchema, Table.sorted,
      Table.empty, List.mergeSort_nil, List.mergeSort_singleton, List.flatMap_nil,
      List.flatMap_singleton, Schema.structured?, List.append_nil, Schema.unresolved, hcontains, if_true]
  rw [Schema.passes_validate_iff, Schema.violations, htypes, List.nil_append,
    show boardSchema.genesis = boardShape none from rfl, shapeViolations_board (.inl rfl),
    List.nil_append, List.flatMap_eq_nil_iff]
  intro e he
  obtain rfl := List.mem_singleton.1 (Table.mem_sorted.1 he)
  exact shapeViolations_board (.inr rfl)

theorem libSites_boardSchema : boardSchema.libSites = [] := by
  simp [Schema.libSites, boardSchema, boardShape, rightsSchema, Table.sorted]

/-- A board is consistent. -/
theorem consistent_board {posts : List (Post genesis × Txid)}
    (hschema : boardSchema.schemaId = .ok schemaId)
    (hgenesis : (Operation.genesis (granting schemaId)).opId = .ok genesis)
    (hlength : posts.length ≤ 0xffffff) : (board schemaId posts).Consistent where
  encodable :=
    { schema := written_boardSchema
      genesis := written_granting
      inputMaps := List.forall_mem_map.2 fun a _ => (written_under a.1 a.2).1
      transitions := List.forall_mem_map.2 fun a _ =>
        List.forall_mem_singleton.2 (written_posting a.1.number)
      whole := written_board hlength }
  reference := hschema
  schema := passes_boardSchema
  genesis _ := Operation.passes_validate_iff.2 conformsTo_granting_board
  transitions := List.forall_mem_map.2 fun a _ => List.forall_mem_singleton.2 fun _ =>
    Operation.passes_validate_iff.2 conformsTo_posting
  links := List.forall_mem_map.2 fun a _ => List.forall_mem_singleton.2
    (links_right rfl hgenesis rfl rfl a.1.number a.1.carried
      (Table.mem_entries.1 (List.mem_singleton.2 rfl)))
  terminals := List.forall_mem_nil _
  scripts := by
    show ∀ e ∈ boardSchema.libSites, _
    rw [libSites_boardSchema]
    exact List.forall_mem_nil _

/-! ## Acceptance -/

/-- Two posts that spend different rights; boards of them under any witnesses are accepted as
consignments of one contract. -/
theorem exists_boards : ∃ (schemaId : SchemaId) (genesis : OpId) (a b : Post genesis),
    a.index = 0 ∧ b.index = 1 ∧ ∀ posts : List (Post genesis × Txid), posts.length ≤ 0xffffff →
      ∃ v : ValidConsignment, v.Accepted ∧ v.consignment = board schemaId posts ∧
        v.contractId = genesis.cast .contract := by
  obtain ⟨schemaId, hschema⟩ := exists_made (f := Id.ofContent .schema) |>.2 written_boardSchema
  obtain ⟨q, hq⟩ := @written_granting schemaId
  obtain ⟨genesis, hgenesis⟩ := exists_made (f := Id.ofContent .operation) |>.2
    ⟨_, Operation.encode_genesis_eq_ok.2 ⟨q, hq, rfl⟩⟩
  have hposting : ∀ index, index = 0 ∨ index = 1 → ∃ id, (posting genesis index).opId = .ok id := by
    intro index hindex
    obtain ⟨q, hq⟩ := @written_posting genesis index hindex
    exact exists_made.2 ⟨_, Operation.encode_transition_eq_ok.2 ⟨q, hq, rfl⟩⟩
  obtain ⟨first, hfirst⟩ := hposting 0 (.inl rfl)
  obtain ⟨second, hsecond⟩ := hposting 1 (.inr rfl)
  refine ⟨schemaId, genesis, ⟨0, first, .inl rfl, hfirst⟩, ⟨1, second, .inr rfl, hsecond⟩, rfl, rfl,
    fun posts hlength => ?_⟩
  obtain ⟨v, hv, hidentifies⟩ := (consistent_board hschema hgenesis hlength).exists_accepted
  refine ⟨v, hv, hidentifies.consignment, ?_⟩
  have hcontract := hidentifies.contractId
  rw [show (board schemaId posts).genesis.contractId = .ok (genesis.cast .contract) from
    bind_eq_ok.2 ⟨genesis, hgenesis, rfl⟩] at hcontract
  exact (Except.ok.inj hcontract).symm

/-- The transaction of which every byte is the same. -/
def uniformTxid (byte : UInt8) : Txid := ⟨List.replicate 32 byte, rfl⟩

/-- The entry of a post under a witness. -/
def Post.entry (a : Post genesis) (witness : Txid) : ContractState.Origin × Operation :=
  (⟨a.id, some witness, (a.under witness).bundle.bundleId.toOption⟩,
    .transition (posting genesis a.index))

/-- What a board tells: the genesis, then the posts under their witnesses. -/
def boardTold (schemaId : SchemaId) (posts : List (Post genesis × Txid)) : Chronicle :=
  (⟨genesis, none, none⟩, .genesis (granting schemaId)) :: posts.map fun a => a.1.entry a.2

theorem told_board {posts : List (Post genesis × Txid)} {v : ValidConsignment}
    (hv : v.consignment = board schemaId posts) (hid : v.contractId = genesis.cast .contract) :
    v.told = boardTold schemaId posts := by
  have htransitions : ∀ a : Post genesis × Txid, (a.1.under a.2).bundle.transitions =
      [(a.1.id, posting genesis a.1.index)] := fun a => List.mergeSort_singleton _
  rw [ValidConsignment.told, hv, hid]
  refine congrArg (List.cons _) ?_
  rw [board, List.flatMap_map, List.map_eq_flatMap]
  simp only [htransitions]
  rfl

end Consignment

end StrictContract
