import StrictContract.Proofs.Contract.Check
import StrictContract.Proofs.Contract.Consignment
import StrictContract.Proofs.Digest.Numeral

/-! # Acceptance — which consignments are accepted

A consignment is **consistent** when everything in it has an encoding, every identifier is the
recomputed one, schema and operations conform, and every input, terminal and script place leads to
what it names. The check of a consignment finds nothing exactly then, and exactly then it is
accepted. -/

namespace StrictContract

/-! ## Identifiers -/

/-- A recomputation without violations has a result. -/
theorem recompute_eq_ok_nil {α : Type} {path : String} {x : Except Failure α} {a : Option α} :
    recompute path x = .ok (a, []) ↔ (∃ b, x = .ok b) ∧ a = x.toOption := by
  unfold recompute
  split
  · rename_i b
    constructor
    · intro h; cases h; exact ⟨⟨b, rfl⟩, rfl⟩
    · rintro ⟨-, rfl⟩; rfl
  · constructor
    · intro h; cases h
    · rintro ⟨⟨b, hb⟩, -⟩; cases hb
  · constructor
    · intro h; cases h
    · rintro ⟨⟨b, hb⟩, -⟩; cases hb

/-- A loop has no violations when no round has. -/
theorem mapM_eq_ok_nil {α β γ : Type} {f : α → Except Failure (β × List γ)} {P : α → Prop}
    {g : α → β} (h : ∀ a b, f a = .ok (b, []) ↔ P a ∧ b = g a) {xs : List α} {ys : List β} :
    (∃ found, xs.mapM f = .ok found ∧ found.flatMap Prod.snd = [] ∧ found.map Prod.fst = ys) ↔
      (∀ a ∈ xs, P a) ∧ ys = xs.map g := by
  constructor
  · rintro ⟨found, hfound, hnil, rfl⟩
    obtain ⟨ps, rfl, rfl, hps⟩ := mapM_eq_ok.1 hfound
    have hround : ∀ q ∈ ps, P q.1 ∧ q.2.1 = g q.1 := by
      intro q hq
      refine (h q.1 q.2.1).1 ?_
      rw [hps q hq, ← List.flatMap_eq_nil_iff.1 hnil _ (List.mem_map_of_mem hq)]
    refine ⟨List.forall_mem_map.2 fun q hq => (hround q hq).1, ?_⟩
    rw [List.map_map, List.map_map]
    exact List.map_congr_left fun q hq => (hround q hq).2
  · rintro ⟨hxs, rfl⟩
    refine ⟨xs.map fun a => (g a, []), mapM_eq_ok.2 ⟨xs.map fun a => (a, g a, []), ?_, ?_, ?_⟩, ?_, ?_⟩
    · simp [Function.comp_def]
    · simp
    · exact List.forall_mem_map.2 fun a ha => (h a (g a)).2 ⟨hxs a ha, rfl⟩
    · simp
    · simp [Function.comp_def]

namespace WitnessBundle

/-- A bundle with all identifiers that it has. -/
def indexed (w : WitnessBundle) : IndexedBundle where
  bundleId := w.bundle.bundleId.toOption
  inputMap := w.bundle.inputMap
  transitions := w.bundle.transitions.map fun e => ⟨e.1, e.2.opId.toOption, e.2⟩

/-- The identifiers of a bundle are recomputed without violations when it has them. -/
theorem index_eq_ok_nil {w : WitnessBundle} {i : Nat} {b : IndexedBundle} :
    w.index i = .ok (b, []) ↔
      ((∃ id, w.bundle.bundleId = .ok id) ∧
        ∀ e ∈ w.bundle.known.entries, ∃ id, e.2.opId = .ok id) ∧ b = w.indexed := by
  have hround : ∀ (e : OpId × Transition) (t : IndexedTransition),
      indexTransition (bundlePath i) e.1 e.2 = .ok (t, []) ↔
        (∃ id, e.2.opId = .ok id) ∧ t = ⟨e.1, e.2.opId.toOption, e.2⟩ := by
    intro e t
    rw [indexTransition, bind_eq_ok]
    constructor
    · rintro ⟨⟨id, errors⟩, hid, h⟩
      cases pure_eq_ok.1 h
      obtain ⟨hsome, rfl⟩ := recompute_eq_ok_nil.1 hid
      exact ⟨hsome, rfl⟩
    · rintro ⟨hid, rfl⟩
      exact ⟨_, recompute_eq_ok_nil.2 ⟨hid, rfl⟩, rfl⟩
  rw [index, bind_eq_ok]
  constructor
  · rintro ⟨⟨id, errors⟩, hid, h⟩
    obtain ⟨found, hfound, h⟩ := bind_eq_ok.1 h
    obtain ⟨rfl, hnil⟩ := Prod.ext_iff.1 (pure_eq_ok.1 h)
    obtain ⟨rfl, hnil⟩ := List.append_eq_nil_iff.1 hnil
    obtain ⟨hsome, rfl⟩ := recompute_eq_ok_nil.1 hid
    obtain ⟨hknown, hmap⟩ := (mapM_eq_ok_nil hround).1 ⟨found, hfound, hnil, rfl⟩
    refine ⟨⟨hsome, fun e he => hknown e (Table.mem_sorted.2 he)⟩, ?_⟩
    rw [hmap]
    rfl
  · rintro ⟨⟨hid, hknown⟩, rfl⟩
    obtain ⟨found, hfound, hnil, hmap⟩ := (mapM_eq_ok_nil hround).2
      ⟨fun e (he : e ∈ w.bundle.transitions) => hknown e (Table.mem_sorted.1 he), rfl⟩
    refine ⟨_, recompute_eq_ok_nil.2 ⟨hid, rfl⟩, bind_eq_ok.2 ⟨found, hfound, ?_⟩⟩
    rw [hnil, hmap]
    rfl

end WitnessBundle

namespace Consignment

/-- The genesis and the known transitions, in the order of the bundles. -/
def operations (c : Consignment) : List Operation :=
  .genesis c.genesis :: c.bundles.flatMap fun w => w.bundle.transitions.map fun e => .transition e.2

/-- The operations that have an id, with it. -/
def identified (c : Consignment) : List (OpId × Operation) :=
  c.operations.filterMap fun o => o.opId.toOption.map fun id => (id, o)

/-- A consignment is **encodable** when everything in it that identifiers commit to has an encoding,
and it has one itself. -/
structure Encodable (c : Consignment) : Prop where
  schema : ∃ octets, c.schema.encode = .ok octets
  genesis : ∃ octets, Genesis.codec.write c.genesis.toValue = .ok octets
  inputMaps : ∀ w ∈ c.bundles, ∃ octets,
    Bundle.inputMapCodec.write w.bundle.inputMapValue = .ok octets
  transitions : ∀ w ∈ c.bundles, ∀ e ∈ w.bundle.known.entries, ∃ octets,
    Transition.codec.write e.2.toValue = .ok octets
  whole : ∃ octets, c.encode = .ok octets

/-- A consignment with all identifiers that it has. -/
def indexed (c : Consignment) : ConsignmentIndex where
  schemaId := c.schema.schemaId.toOption
  contractId := c.genesis.contractId.toOption
  consignmentId := c.consignmentId.toOption
  operations := c.identified.foldl (fun t e => t.putNew e.1 e.2) .empty
  bundles := c.bundles.map WitnessBundle.indexed

/-- The operations of the bundles are those of the transitions with recomputed ids. -/
theorem foldl_addOperation (c : Consignment) (t : Table OpId Operation) :
    ((c.bundles.map WitnessBundle.indexed).flatMap IndexedBundle.transitions).foldl addOperation t =
      ((c.bundles.flatMap fun w => w.bundle.transitions.map fun e =>
        Operation.transition e.2).filterMap fun o =>
          o.opId.toOption.map fun id => (id, o)).foldl (fun t e => t.putNew e.1 e.2) t := by
  rw [List.flatMap_map, List.foldl_filterMap, List.foldl_flatMap, List.foldl_flatMap]
  congr 1
  funext t w
  rw [WitnessBundle.indexed, List.foldl_map, List.foldl_map]
  congr 1
  funext t e
  show addOperation t ⟨e.1, (Operation.transition e.2).opId.toOption, e.2⟩ = _
  rw [addOperation]
  cases (Operation.transition e.2).opId.toOption <;> rfl

/-- The operations of a consignment are added to its genesis. -/
theorem indexed_eq (c : Consignment) : c.indexed =
    { schemaId := c.schema.schemaId.toOption
      contractId := c.genesis.contractId.toOption
      consignmentId := c.consignmentId.toOption
      operations :=
        ((c.bundles.map WitnessBundle.indexed).flatMap IndexedBundle.transitions).foldl addOperation
          (match c.genesis.contractId.toOption with
          | some id => Table.empty.put (id.cast .operation) (.genesis c.genesis)
          | none => .empty)
      bundles := c.bundles.map WitnessBundle.indexed } := by
  rw [foldl_addOperation, indexed, identified, operations, Genesis.contractId, List.filterMap_cons]
  cases (Operation.genesis c.genesis).opId <;> rfl

/-- Whether a consignment is encodable, in terms of the identifiers that it has. -/
theorem encodable_iff {c : Consignment} :
    c.Encodable ↔ (∃ id, c.schema.schemaId = .ok id) ∧ (∃ id, c.genesis.contractId = .ok id) ∧
      (∀ w ∈ c.bundles, (∃ id, w.bundle.bundleId = .ok id) ∧
        ∀ e ∈ w.bundle.known.entries, ∃ id, e.2.opId = .ok id) ∧
      ∃ id, c.consignmentId = .ok id := by
  unfold Schema.schemaId Genesis.contractId Bundle.bundleId Transition.opId consignmentId
    Operation.opId
  have hgenesis : (∃ octets, (Operation.genesis c.genesis).encode = .ok octets) ↔
      ∃ octets, Genesis.codec.write c.genesis.toValue = .ok octets := by
    simp only [Operation.encode_genesis_eq_ok]
    exact ⟨fun ⟨_, q, hq, _⟩ => ⟨q, hq⟩, fun ⟨q, hq⟩ => ⟨_, q, hq, rfl⟩⟩
  have htransition : ∀ t : Transition, (∃ octets, (Operation.transition t).encode = .ok octets) ↔
      ∃ octets, Transition.codec.write t.toValue = .ok octets := by
    intro t
    simp only [Operation.encode_transition_eq_ok]
    exact ⟨fun ⟨_, q, hq, _⟩ => ⟨q, hq⟩, fun ⟨q, hq⟩ => ⟨_, q, hq, rfl⟩⟩
  simp only [exists_made, hgenesis, htransition]
  constructor
  · rintro ⟨hschema, hgenesis, hmaps, htransitions, hwhole⟩
    exact ⟨hschema, hgenesis, fun w hw => ⟨hmaps w hw, htransitions w hw⟩, hwhole⟩
  · rintro ⟨hschema, hgenesis, hbundles, hwhole⟩
    exact ⟨hschema, hgenesis, fun w hw => (hbundles w hw).1, fun w hw => (hbundles w hw).2, hwhole⟩

/-- The identifiers of a consignment are recomputed without violations when it is encodable. -/
theorem index_eq_ok_nil {c : Consignment} {ix : ConsignmentIndex} :
    c.index = .ok (ix, []) ↔ c.Encodable ∧ ix = c.indexed := by
  have hround : ∀ (x : WitnessBundle × Nat) (b : IndexedBundle), x.1.index x.2 = .ok (b, []) ↔
      ((∃ id, x.1.bundle.bundleId = .ok id) ∧
        ∀ e ∈ x.1.bundle.known.entries, ∃ id, e.2.opId = .ok id) ∧ b = x.1.indexed :=
    fun x b => WitnessBundle.index_eq_ok_nil
  have hmap : c.bundles.zipIdx.map (fun x => x.1.indexed) = c.bundles.map WitnessBundle.indexed := by
    rw [← List.zipIdx_map_fst 0 c.bundles, List.map_map, List.zipIdx_map_fst]
    rfl
  rw [index, bind_eq_ok, encodable_iff]
  constructor
  · rintro ⟨⟨schemaId, schemaErrors⟩, hschema, h⟩
    obtain ⟨⟨contractId, contractErrors⟩, hcontract, h⟩ := bind_eq_ok.1 h
    dsimp only at h
    obtain ⟨found, hfound, h⟩ := bind_eq_ok.1 h
    split at h
    · rename_i hnil
      obtain ⟨⟨ownId, ownErrors⟩, hown, h⟩ := bind_eq_ok.1 h
      obtain ⟨hix, hnone⟩ := Prod.ext_iff.1 (pure_eq_ok.1 h)
      simp only [List.append_eq_nil_iff, List.isEmpty_iff] at hnil hnone
      obtain ⟨⟨⟨rfl, rfl⟩, hfoundNil⟩, rfl⟩ := hnone
      obtain ⟨hschemaId, rfl⟩ := recompute_eq_ok_nil.1 hschema
      obtain ⟨hcontractId, rfl⟩ := recompute_eq_ok_nil.1 hcontract
      obtain ⟨hownId, rfl⟩ := recompute_eq_ok_nil.1 hown
      obtain ⟨hbundles, hfirst⟩ := (mapM_eq_ok_nil hround).1 ⟨found, hfound, hfoundNil, rfl⟩
      rw [hfirst, hmap] at hix
      exact ⟨⟨hschemaId, hcontractId, forall_mem_zipIdx_fst.1 hbundles, hownId⟩,
        hix.symm.trans c.indexed_eq.symm⟩
    · rename_i hnil
      -- the id of the consignment is only left out if there is a violation
      obtain ⟨-, hnone⟩ := Prod.ext_iff.1 (pure_eq_ok.1 h)
      exact absurd (List.isEmpty_iff.2 (List.append_eq_nil_iff.1 hnone).1) hnil
  · rintro ⟨⟨hschema, hcontract, hbundles, hown⟩, rfl⟩
    obtain ⟨found, hfound, hnil, hfirst⟩ := (mapM_eq_ok_nil hround).2
      ⟨(forall_mem_zipIdx_fst (P := fun w => _)).2 hbundles, rfl⟩
    refine ⟨_, recompute_eq_ok_nil.2 ⟨hschema, rfl⟩, bind_eq_ok.2
      ⟨_, recompute_eq_ok_nil.2 ⟨hcontract, rfl⟩, bind_eq_ok.2 ⟨found, hfound, ?_⟩⟩⟩
    rw [if_pos (by rw [hnil]; rfl)]
    refine bind_eq_ok.2 ⟨_, recompute_eq_ok_nil.2 ⟨hown, rfl⟩, ?_⟩
    rw [hnil, hfirst, hmap, c.indexed_eq]
    rfl

/-! ## References -/

/-- An id **resolves** to the first operation that has it. -/
def Resolves (c : Consignment) (id : OpId) (o : Operation) : Prop :=
  o.opId = .ok id ∧
    ∃ before after, c.operations = before ++ o :: after ∧ ∀ x ∈ before, x.opId ≠ .ok id

/-- A bundle is the last one with an id. -/
def LastBundle (c : Consignment) (id : BundleId) (w : WitnessBundle) : Prop :=
  w.bundle.bundleId = .ok id ∧
    ∃ before after, c.bundles = before ++ w :: after ∧ ∀ x ∈ after, x.bundle.bundleId ≠ .ok id

/-- A known transition is **linked** when it is carried under its own id, names the contract, and
spends existing assignments that the bundle maps to it. -/
structure Links (c : Consignment) (b : Bundle) (id : OpId) (t : Transition) : Prop where
  carried : t.opId = .ok id
  contract : c.genesis.contractId = .ok t.contractId
  spent : ∀ input ∈ t.inputs, ∃ o a, c.Resolves input.op o ∧
    o.state.assignments.get? input.type = some a ∧ input.index < a.items.length
  mapped : ∀ input ∈ t.inputs, b.inputMap.get? input = some id

end Consignment

/-- A bundle **conceals** a seal when it is that of a confidential assignment of a known
transition. -/
def Bundle.Conceals (b : Bundle) (secret : SecretSeal) : Prop :=
  ∃ e ∈ b.known.entries, ∃ a ∈ e.2.state.assignments.values, ∃ state,
    Assignment.confidential secret state ∈ a.items

/-- The concealed seals that are collected from a bundle. -/
theorem WitnessBundle.mem_secrets {w : WitnessBundle} {secret : SecretSeal} :
    secret ∈ w.indexed.secrets ↔ w.bundle.Conceals secret := by
  have hitem : ∀ a : Assignment, a.secret? = some secret ↔
      ∃ state, a = .confidential secret state := by
    intro a
    cases a <;> simp [Assignment.secret?]
  have hitems : ∀ items : List Assignment, (∃ a ∈ items, a.secret? = some secret) ↔
      ∃ state, .confidential secret state ∈ items := by
    intro items
    constructor
    · rintro ⟨a, ha, hsecret⟩
      obtain ⟨state, rfl⟩ := (hitem a).1 hsecret
      exact ⟨state, ha⟩
    · rintro ⟨state, ha⟩
      exact ⟨_, ha, rfl⟩
  simp only [IndexedBundle.secrets, indexed, List.flatMap_map, List.mem_flatMap, Assignments.secrets,
    List.mem_filterMap, hitems, Bundle.Conceals, Bundle.transitions, Table.mem_sorted]

namespace Consignment

/-- The operation that is found under an id is the one that the id resolves to. -/
theorem get?_operations {c : Consignment} {id : OpId} {o : Operation} :
    c.indexed.operations.get? id = some o ↔ c.Resolves id o := by
  have hlookup : ∀ ops : List Operation,
      (ops.filterMap fun o => o.opId.toOption.map fun id => (id, o)).lookup id =
        ops.find? fun o => o.opId.toOption == some id := by
    intro ops
    induction ops with
    | nil => rfl
    | cons x ops ih =>
      rw [List.filterMap_cons, List.find?_cons, ← ih]
      cases x.opId.toOption with
      | none => rfl
      | some i =>
        show List.lookup id ((i, x) :: _) = _
        rw [List.lookup_cons]
        by_cases hid : id = i
        · rw [beq_iff_eq.2 hid, beq_iff_eq.2 (congrArg some hid.symm)]
        · rw [beq_eq_false_iff_ne.2 hid,
            beq_eq_false_iff_ne.2 fun h => hid (Option.some.inj h).symm]
  rw [indexed, Table.get?_foldl_putNew, identified, hlookup]
  show (none.or _) = _ ↔ _
  rw [Option.none_or, List.find?_eq_some_iff_append, Resolves]
  simp only [beq_iff_eq, toOption_eq_some, Bool.not_eq_true', beq_eq_false_iff_ne, ne_eq]

/-- The bundle that is found under an id is the last one with it. -/
theorem bundle?_indexed {c : Consignment} {id : BundleId} {b : IndexedBundle} :
    c.indexed.bundle? id = some b ↔ ∃ w, c.LastBundle id w ∧ b = w.indexed := by
  have hid : ∀ w : WitnessBundle, ((fun b => b.bundleId == some id) ∘ WitnessBundle.indexed) w =
      true ↔ w.bundle.bundleId = .ok id := fun w => beq_iff_eq.trans toOption_eq_some
  rw [ConsignmentIndex.bundle?, indexed, ← List.map_reverse, List.find?_map, Option.map_eq_some_iff]
  simp only [List.find?_eq_some_iff_append, Bool.not_eq_true', ← Bool.not_eq_true, hid]
  constructor
  · rintro ⟨w, ⟨hw, after, before, hsplit, hafter⟩, rfl⟩
    refine ⟨w, ⟨hw, before.reverse, after.reverse, ?_, ?_⟩, rfl⟩
    · rw [← List.reverse_reverse c.bundles, hsplit]
      simp
    · exact fun x hx => hafter x (List.mem_reverse.1 hx)
  · rintro ⟨w, ⟨hw, before, after, hsplit, hafter⟩, rfl⟩
    refine ⟨w, ⟨hw, after.reverse, before.reverse, ?_, ?_⟩, rfl⟩
    · rw [hsplit]
      simp
    · exact fun x hx => hafter x (List.mem_reverse.1 hx)

/-! ## Consistency -/

/-- A consignment is **consistent** when nothing in it is missing, misnamed or invalid. -/
structure Consistent (c : Consignment) : Prop where
  encodable : c.Encodable
  reference : c.schema.schemaId = .ok c.genesis.schemaId
  /-- Schema and operations are accepted by their checks. -/
  schema : (c.schema.validate c.types).Passes
  genesis : ∀ path, ((Operation.genesis c.genesis).validate c.schema c.types path).Passes
  transitions : ∀ w ∈ c.bundles, ∀ e ∈ w.bundle.known.entries, ∀ path,
    ((Operation.transition e.2).validate c.schema c.types path).Passes
  links : ∀ w ∈ c.bundles, ∀ e ∈ w.bundle.known.entries, c.Links w.bundle e.1 e.2
  /-- Every terminal is a carried bundle that conceals the seals. -/
  terminals : ∀ e ∈ c.terminals.entries, ∃ w, c.LastBundle e.1 w ∧ ∀ s ∈ e.2, w.bundle.Conceals s
  /-- Every script place is in a carried library. -/
  scripts : ∀ e ∈ c.schema.libSites, ∃ code ∈ c.scripts, libraryId code = e.2.lib

/-- Genesis and schema have no violation when the genesis names the schema and both conform. -/
theorem genesisFindings_eq_ok_nil {c : Consignment} (h : c.Encodable) :
    c.genesisFindings c.indexed = .ok [] ↔ c.schema.schemaId = .ok c.genesis.schemaId ∧
      (c.schema.validate c.types).Passes ∧
      ∀ path, ((Operation.genesis c.genesis).validate c.schema c.types path).Passes := by
  obtain ⟨id, hid⟩ := (encodable_iff.1 h).1
  have hreference : c.referenceViolations c.indexed = [] ↔
      c.schema.schemaId = .ok c.genesis.schemaId := by
    have hindex : c.indexed.schemaId = some id := toOption_eq_some.2 hid
    rw [referenceViolations, hindex, hid]
    by_cases hschema : c.genesis.schemaId = id
    · simp [hschema]
    · simp [hschema, Ne.symm hschema]
  rw [genesisFindings, ← hreference]
  simp only [bind_eq_ok, pure_eq_ok, List.append_eq_nil_iff, Operation.passes_validate_iff,
    Schema.passes_validate_iff, forall_const]
  constructor
  · rintro ⟨found, hfound, ⟨hnamed, hschema⟩, rfl⟩
    exact ⟨hnamed, hschema, Operation.findings_eq_ok_nil.1 hfound⟩
  · rintro ⟨hnamed, hschema, hgenesis⟩
    exact ⟨[], Operation.findings_eq_ok_nil.2 hgenesis, ⟨hnamed, hschema⟩, rfl⟩

/-- An input has no violation when it leads to an assignment and is mapped to its transition. -/
theorem inputViolations_eq_nil {ix : ConsignmentIndex} {inputMap : Table Opout OpId}
    {bundle path : String} {id : OpId} {input : Opout} :
    inputViolations ix inputMap bundle path (some id) input = [] ↔
      (∃ o a, ix.operations.get? input.op = some o ∧
        o.state.assignments.get? input.type = some a ∧ input.index < a.items.length) ∧
      inputMap.get? input = some id := by
  rw [inputViolations, List.append_eq_nil_iff]
  refine and_congr ?_ ?_
  · cases ix.operations.get? input.op with
    | none => simp
    | some target =>
      cases ha : target.state.assignments.get? input.type with
      | none => simp [ha]
      | some a => simp [ha]
  · simp

/-- A transition has no violation when it is linked and conforms. -/
theorem transitionFindings_eq_ok_nil {c : Consignment} (h : c.Encodable) {b : Bundle}
    {bundle : String} {e : OpId × Transition} (he : ∃ id, e.2.opId = .ok id) :
    c.transitionFindings c.indexed b.inputMap bundle ⟨e.1, e.2.opId.toOption, e.2⟩ = .ok [] ↔
      (∀ path, ((Operation.transition e.2).validate c.schema c.types path).Passes) ∧
      c.Links b e.1 e.2 := by
  obtain ⟨id, hid⟩ := he
  obtain ⟨contract, hcontract⟩ := (encodable_iff.1 h).2.1
  have hindex : c.indexed.contractId = some contract := toOption_eq_some.2 hcontract
  have hcarried : carriedViolations bundle ⟨e.1, some id, e.2⟩ = [] ↔ e.2.opId = .ok e.1 := by
    rw [carriedViolations, hid]
    by_cases hkey : e.1 = id
    · simp [hkey]
    · simp [hkey, Ne.symm hkey]
  have hcontract' : ∀ path, contractViolations c.indexed path ⟨e.1, some id, e.2⟩ = [] ↔
      c.genesis.contractId = .ok e.2.contractId := by
    intro path
    rw [contractViolations, hindex, hcontract]
    by_cases hnamed : e.2.contractId = contract
    · simp [hnamed]
    · simp [hnamed, Ne.symm hnamed]
  have hsorted : ∀ input, input ∈ e.2.sortedInputs ↔ input ∈ e.2.inputs := fun input =>
    (List.mergeSort_perm ..).mem_iff
  have hoption : e.2.opId.toOption = some id := toOption_eq_some.2 hid
  rw [transitionFindings, hoption]
  simp only [bind_eq_ok, pure_eq_ok, List.append_eq_nil_iff, hcarried, hcontract',
    Operation.passes_validate_iff, forall_const, List.flatMap_eq_nil_iff, inputViolations_eq_nil,
    hsorted, get?_operations]
  constructor
  · rintro ⟨found, hfound, ⟨⟨hown, hnamed⟩, rfl⟩, hinputs⟩
    obtain rfl : id = e.1 := Except.ok.inj (hid.symm.trans hown)
    exact ⟨Operation.findings_eq_ok_nil.1 hfound, hown, hnamed, fun i hi => (hinputs i hi).1,
      fun i hi => (hinputs i hi).2⟩
  · rintro ⟨hconforms, hlinks⟩
    obtain rfl : id = e.1 := Except.ok.inj (hid.symm.trans hlinks.carried)
    exact ⟨[], Operation.findings_eq_ok_nil.2 hconforms, ⟨⟨hlinks.carried, hlinks.contract⟩, rfl⟩,
      fun i hi => ⟨hlinks.spent i hi, hlinks.mapped i hi⟩⟩

theorem terminalViolations_eq_nil {c : Consignment} :
    c.terminalViolations c.indexed = [] ↔
      ∀ e ∈ c.terminals.entries, ∃ w, c.LastBundle e.1 w ∧ ∀ s ∈ e.2, w.bundle.Conceals s := by
  rw [terminalViolations, List.flatMap_eq_nil_iff]
  simp only [Table.mem_sorted]
  refine forall₂_congr fun e _ => ?_
  cases hbundle : c.indexed.bundle? e.1 with
  | none =>
    have hnone : ∀ w, ¬ c.LastBundle e.1 w := by
      intro w hw
      rw [bundle?_indexed.2 ⟨w, hw, rfl⟩] at hbundle
      cases hbundle
    simp [hnone]
  | some b =>
    obtain ⟨w, hw, rfl⟩ := bundle?_indexed.1 hbundle
    have hmatched : ∀ s, (if w.indexed.secrets.contains s = true then []
        else [StrictError.of ("terminals[" ++ e.1.hex ++ "]") (.unmatchedSeal s.text)]) = [] ↔
          s ∈ w.indexed.secrets := by
      intro s
      by_cases hs : s ∈ w.indexed.secrets <;> simp [hs]
    simp only [List.flatMap_eq_nil_iff, hmatched, (List.mergeSort_perm ..).mem_iff]
    constructor
    · intro hseals
      exact ⟨w, hw, fun s hs => WitnessBundle.mem_secrets.1 (hseals s hs)⟩
    · rintro ⟨w', hw', hseals⟩ s hs
      have hsame : w'.indexed = w.indexed :=
        Option.some.inj ((bundle?_indexed.2 ⟨w', hw', rfl⟩).symm.trans hbundle)
      rw [← hsame]
      exact WitnessBundle.mem_secrets.2 (hseals s hs)

theorem scriptViolations_eq_nil {c : Consignment} :
    c.scriptViolations = [] ↔
      ∀ e ∈ c.schema.libSites, ∃ code ∈ c.scripts, libraryId code = e.2.lib := by
  rw [scriptViolations]
  simp only [List.flatMap_eq_nil_iff, libraryIds]
  refine forall₂_congr fun e _ => ?_
  simp 

/-- A bundle has no violation when its known transitions have none. -/
theorem bundleFindings_eq_ok_nil {c : Consignment} (h : c.Encodable) {w : WitnessBundle}
    (hw : w ∈ c.bundles) {i : Nat} :
    c.bundleFindings c.indexed w.indexed i = .ok [] ↔ ∀ e ∈ w.bundle.known.entries,
      (∀ path, ((Operation.transition e.2).validate c.schema c.types path).Passes) ∧
        c.Links w.bundle e.1 e.2 := by
  rw [bundleFindings, bind_eq_ok]
  simp only [pure_eq_ok, exists_mapM_flatten_eq_nil]
  rw [WitnessBundle.indexed, List.forall_mem_map]
  simp only [Bundle.transitions, Table.mem_sorted]
  refine forall₂_congr fun e he => ?_
  exact transitionFindings_eq_ok_nil h (((encodable_iff.1 h).2.2.1 w hw).2 e he)

/-- The bundles have no violations when their known transitions have none. -/
theorem bundlesFindings_eq_ok_nil {c : Consignment} (h : c.Encodable) :
    (∀ x ∈ c.indexed.bundles.zipIdx, c.bundleFindings c.indexed x.1 x.2 = .ok []) ↔
      ∀ w ∈ c.bundles, ∀ e ∈ w.bundle.known.entries,
        (∀ path, ((Operation.transition e.2).validate c.schema c.types path).Passes) ∧
          c.Links w.bundle e.1 e.2 := by
  show (∀ x ∈ (c.bundles.map WitnessBundle.indexed).zipIdx, _) ↔ _
  rw [List.zipIdx_map, List.forall_mem_map]
  refine Iff.trans (forall₂_congr fun x hx => ?_) forall_mem_zipIdx_fst
  exact bundleFindings_eq_ok_nil h (List.fst_mem_of_mem_zipIdx hx)

/-- There are no findings when the consignment is consistent. -/
theorem findings_eq_ok_nil {c : Consignment} {ix : ConsignmentIndex} :
    c.findings = .ok ([], ix) ↔ c.Consistent ∧ ix = c.indexed := by
  rw [findings]
  simp only [bind_eq_ok, pure_eq_ok, Prod.exists, Prod.mk.injEq, List.append_eq_nil_iff]
  constructor
  · rintro ⟨ix, _, hindex, _, hgenesis, found, hfound, ⟨⟨⟨rfl, rfl⟩, hnil⟩, hterminals, hscripts⟩, rfl⟩
    obtain ⟨hencodable, rfl⟩ := index_eq_ok_nil.1 hindex
    obtain ⟨hreference, hschema, hgenesis⟩ := (genesisFindings_eq_ok_nil hencodable).1 hgenesis
    have hbundles := (bundlesFindings_eq_ok_nil hencodable).1
      (exists_mapM_flatten_eq_nil.1 ⟨found, hfound, hnil⟩)
    exact ⟨⟨hencodable, hreference, hschema, hgenesis, fun w hw e he => (hbundles w hw e he).1,
      fun w hw e he => (hbundles w hw e he).2, terminalViolations_eq_nil.1 hterminals,
      scriptViolations_eq_nil.1 hscripts⟩, rfl⟩
  · rintro ⟨h, rfl⟩
    obtain ⟨found, hfound, hnil⟩ := exists_mapM_flatten_eq_nil.2
      ((bundlesFindings_eq_ok_nil h.encodable).2 fun w hw e he =>
        ⟨h.transitions w hw e he, h.links w hw e he⟩)
    exact ⟨c.indexed, [], index_eq_ok_nil.2 ⟨h.encodable, rfl⟩, [],
      (genesisFindings_eq_ok_nil h.encodable).2 ⟨h.reference, h.schema, h.genesis⟩, found, hfound,
      ⟨⟨⟨rfl, rfl⟩, hnil⟩, terminalViolations_eq_nil.2 h.terminals, scriptViolations_eq_nil.2 h.scripts⟩,
      rfl⟩

/-- The check of a consignment passes when the consignment is consistent. -/
theorem passes_check_iff {c : Consignment} : c.check.Passes ↔ c.Consistent := by
  rw [passes_iff_findings]
  constructor
  · rintro ⟨ix, h⟩
    exact (findings_eq_ok_nil.1 h).1
  · intro h
    exact ⟨c.indexed, findings_eq_ok_nil.2 ⟨h, rfl⟩⟩

/-! ## Assembly -/

/-- What the assembly of a consignment makes of a report. -/
def judge (c : Consignment) (found : List StrictError) (ix : ConsignmentIndex) :
    Except Failure ValidConsignment :=
  match found, c.accepted? ix with
  | [], some v => .ok v
  | errors, _ => .error (.rejected errors)

/-- A consignment is assembled when there are no findings and all its identifiers are known. -/
theorem assemble_yields (c : Consignment) :
    c.assemble.Yields (c.findings >>= fun (found, ix) => c.judge found ix) := by
  have hindexed : Logged.Yields (tryCatch c.checkIndexed fun failure => do
      Logged.log [assembled false [("bundles", Value.ofNat c.bundles.length)]]
      throw failure) ((fun x => (⟨x.1⟩, x.2)) <$> c.findings) :=
    .rethrow c.checkIndexed_yields fun e => .andThen (.log _) (.throw e)
  have h : c.assemble.Yields (((fun x => (Report.mk x.1, x.2)) <$> c.findings) >>=
      fun x => c.judge x.1.violations x.2) := by
    refine .bind hindexed ?_
    rintro ⟨report, ix⟩
    dsimp only
    unfold judge
    rcases report.violations with _ | ⟨e, found⟩
    · cases c.accepted? ix with
      | none => exact .andThen (.log _) (.throw _)
      | some v => exact .andThen (.log _) (.pure v)
    · exact .andThen (.log _) (.throw _)
  intro written
  refine (h written).trans ?_
  cases c.findings <;> rfl

end Consignment

/-- The assembled form of a consignment **identifies** everything in it: it carries all the
recomputed ids, each operation id once. -/
structure ValidConsignment.Identifies (v : ValidConsignment) (c : Consignment) : Prop where
  consignment : v.consignment = c
  consignmentId : c.consignmentId = .ok v.consignmentId
  contractId : c.genesis.contractId = .ok v.contractId
  schemaId : c.schema.schemaId = .ok v.schemaId
  bundleIds : c.bundles.map (fun w => w.bundle.bundleId) = v.bundleIds.map .ok
  opIds : ∃ ids, c.operations.map Operation.opId = ids.map .ok ∧ v.opIds = distinct ids

namespace Consignment

/-- What the assembly of a consignment leads to, in terms of what its check leads to. -/
def Verdict (c : Consignment) : Except Failure Report → Prop
  | .ok ⟨[]⟩ => ∃ v, c.assemble.Yields (.ok v) ∧ v.Identifies c
  | .ok ⟨found⟩ => c.assemble.Yields (.error (.rejected found))
  | .error e => c.assemble.Yields (.error e)

theorem exists_accepted {c : Consignment} (h : c.Encodable) :
    ∃ v, c.accepted? c.indexed = some v ∧ v.Identifies c := by
  obtain ⟨⟨schemaId, hschema⟩, ⟨contractId, hcontract⟩, hbundles, ⟨ownId, hown⟩⟩ := encodable_iff.1 h
  have haccepted : c.accepted? c.indexed = some ⟨c, ownId, contractId, schemaId,
      c.indexed.bundles.filterMap IndexedBundle.bundleId, c.indexed.operations.keys⟩ := by
    have hown' : c.indexed.consignmentId = some ownId := toOption_eq_some.2 hown
    have hcontract' : c.indexed.contractId = some contractId := toOption_eq_some.2 hcontract
    have hschema' : c.indexed.schemaId = some schemaId := toOption_eq_some.2 hschema
    rw [accepted?, hown', hcontract', hschema']
    rfl
  refine ⟨_, haccepted, rfl, hown, hcontract, hschema, ?_, ?_⟩
  · rw [filterMap_toOption fun w hw => (hbundles w hw).1]
    show _ = ((c.bundles.map WitnessBundle.indexed).filterMap _).map _
    rw [List.filterMap_map]
    rfl
  · have hoperations : ∀ o ∈ c.operations, ∃ id, o.opId = .ok id := by
      rw [operations, List.forall_mem_cons]
      refine ⟨exists_made.1 ⟨contractId, hcontract⟩, fun o ho => ?_⟩
      obtain ⟨w, hw, ho⟩ := List.mem_flatMap.1 ho
      obtain ⟨e, he, rfl⟩ := List.mem_map.1 ho
      exact (hbundles w hw).2 e (Table.mem_sorted.1 he)
    refine ⟨_, filterMap_toOption hoperations, ?_⟩
    show c.indexed.operations.keys = _
    rw [indexed, Table.keys_foldl_putNew, identified, List.map_filterMap]
    refine congrArg (fun f => distinct (c.operations.filterMap f)) (funext fun o => ?_)
    cases o.opId <;> rfl

/-! ## Rights that are handed over -/

variable {schemaId : SchemaId} {genesis first second : OpId} {index : Int} {secret : SecretSeal}
  {bundle : BundleId}

/-- An operation that only assigns rights conforms where any number of them is allowed. -/
theorem conforms_rights {o : Operation} {shape : OperationSchema} {items : List Assignment}
    (hstate : o.state = rights items) (hmetadata : shape.metadata = .empty)
    (hglobals : shape.globals = .empty) (hassignments : shape.assignments = anyRights)
    (hlength : items.length ≤ 0xffff) (hfits : ∀ a ∈ items, a.Fits o.isGenesis .empty .declarative)
    (hinputs : ∀ bounds, shape.inputs = some bounds →
      (∀ input ∈ o.inputs, bounds.contains input.type = true ∧ input.type = 0) ∧
        ∀ e ∈ bounds.entries, e.2.admits (o.inputCount e.1) = true) :
    o.Conforms rightsSchema .empty shape where
  metadata := by rw [hstate]; exact List.forall_mem_nil _
  metadataCounts := by rw [hmetadata]; exact List.forall_mem_nil _
  globals := by rw [hstate]; exact List.forall_mem_nil _
  globalCounts := by rw [hglobals]; exact List.forall_mem_nil _
  inputs bounds hbounds input hinput := by
    obtain ⟨hallowed, htype⟩ := (hinputs bounds hbounds).1 input hinput
    exact ⟨hallowed, htype ▸ rfl⟩
  inputCounts bounds hbounds := (hinputs bounds hbounds).2
  assignments := by
    rw [hstate, hassignments]
    exact List.forall_mem_singleton.2 ⟨⟨.declarative, .text "a"⟩, rfl, rfl, rfl, hfits⟩
  assignmentCounts := by
    rw [hstate, hassignments]
    refine List.forall_mem_singleton.2 (decide_eq_true ⟨Int.natCast_nonneg _, ?_⟩)
    exact Int.ofNat_le.2 hlength

theorem conformsTo_granting :
    (Operation.genesis (granting schemaId)).ConformsTo rightsSchema .empty := by
  refine conforms_rights rfl rfl rfl rfl (by decide) ?_ nofun
  simp [Assignment.Fits, zeroSeal]

theorem conformsTo_passing :
    (Operation.transition (passing genesis index secret)).ConformsTo rightsSchema .empty := by
  refine ⟨_, rfl, conforms_rights rfl rfl rfl rfl (Nat.le_of_ble_eq_true rfl) ?_ ?_⟩
  · simp [Assignment.Fits]
  · rintro _ ⟨⟩
    refine ⟨List.forall_mem_singleton.2 ⟨rfl, rfl⟩, List.forall_mem_singleton.2 ?_⟩
    rfl

theorem boundViolations_anyRights {path what : String} {declared : Int → Bool}
    (h : declared 0 = true) : Schema.boundViolations path what anyRights declared = [] := by
  rw [Schema.boundViolations, Table.sorted, anyRights, List.mergeSort_singleton, List.flatMap_singleton]
  dsimp only
  rw [h]
  rfl

/-- A shape that allows any number of rights is consistent. -/
theorem shapeViolations_rights {path : String} {shape : OperationSchema}
    (hmetadata : shape.metadata = .empty) (hglobals : shape.globals = .empty)
    (hassignments : shape.assignments = anyRights)
    (hinputs : shape.inputs = none ∨ shape.inputs = some anyRights) :
    rightsSchema.shapeViolations path shape = [] := by
  have howned : rightsSchema.ownedTypes.contains 0 = true := rfl
  have hnone : ∀ (path what : String) (declared : Int → Bool),
      Schema.boundViolations path what .empty declared = [] := fun path what declared => by
    rw [Schema.boundViolations, Table.sorted_empty, List.flatMap_nil]
  rw [Schema.shapeViolations, hmetadata, hglobals, hassignments, hnone, hnone,
    boundViolations_anyRights howned]
  rcases hinputs with hinputs | hinputs
  · rw [hinputs]
    rfl
  · rw [hinputs]
    exact congrArg (· ++ []) (boundViolations_anyRights howned)

theorem passes_rightsSchema : (rightsSchema.validate .empty).Passes := by
  have hgenesis := fun path => @shapeViolations_rights path rightsSchema.genesis rfl rfl rfl (.inl rfl)
  have htypes : rightsSchema.unresolvedTypes .empty = [] := by
    simp only [Schema.unresolvedTypes, rightsSchema, smallestSchema, Table.sorted, Table.empty,
      List.mergeSort_nil, List.mergeSort_singleton, List.flatMap_nil, List.flatMap_singleton,
      Schema.structured?, List.append_nil]
  rw [Schema.passes_validate_iff, Schema.violations, htypes, hgenesis, List.nil_append,
    List.nil_append, List.flatMap_eq_nil_iff]
  intro e he
  obtain rfl := List.mem_singleton.1 (Table.mem_sorted.1 he)
  exact shapeViolations_rights rfl rfl rfl (.inr rfl)

theorem libSites_rightsSchema : rightsSchema.libSites = [] := by
  simp [Schema.libSites, rightsSchema, Table.sorted]

/-- A transition that is carried under its id and spends a right of the genesis is linked. -/
theorem links_right {c : Consignment} {b : Bundle} {id : OpId} {t : Transition}
    (hc : c.genesis = granting schemaId)
    (hgenesis : (Operation.genesis (granting schemaId)).opId = .ok genesis)
    (hcontract : t.contractId = genesis.cast .contract) (hinputs : t.inputs = [⟨genesis, 0, index⟩])
    (hindex : index = 0 ∨ index = 1) (hcarried : t.opId = .ok id)
    (hmapped : b.inputMap.get? ⟨genesis, 0, index⟩ = some id) : c.Links b id t where
  carried := hcarried
  contract := by
    rw [hc, hcontract]
    exact bind_eq_ok.2 ⟨genesis, hgenesis, rfl⟩
  spent := by
    have hresolves : c.Resolves genesis (.genesis (granting schemaId)) :=
      ⟨hgenesis, [], _, by rw [← hc]; rfl, nofun⟩
    have hbound : index < 2 := by omega
    rw [hinputs]
    exact List.forall_mem_singleton.2 ⟨_, _, hresolves, rfl, hbound⟩
  mapped := by
    rw [hinputs]
    exact List.forall_mem_singleton.2 hmapped

namespace View

variable {v : View genesis first second}

/-- A view conceals the seal of its transition. -/
theorem conceals_iff : v.toBundle.bundle.Conceals secret ↔ secret = v.secret := by
  simp [Bundle.Conceals, toBundle, passing, rights, Table.values]

end View

/-- A consignment of views is consistent if the last one conceals the seal that is handed over. -/
theorem consistent_handing {views : List (View genesis first second)}
    (hschema : rightsSchema.schemaId = .ok schemaId)
    (hgenesis : (Operation.genesis (granting schemaId)).opId = .ok genesis)
    (hlength : views.length ≤ 0xffffff)
    (hhanded : ∃ w, (handing schemaId (views.map View.toBundle) bundle secret).LastBundle bundle w ∧
      w.bundle.Conceals secret) :
    (handing schemaId (views.map View.toBundle) bundle secret).Consistent where
  encodable :=
    { schema := written_rightsSchema
      genesis := written_granting
      inputMaps := List.forall_mem_map.2 fun v _ => written_inputsOf v
      transitions := List.forall_mem_map.2 fun v _ =>
        List.forall_mem_singleton.2 (written_passing v.number)
      whole := written_handing hlength written_noTypes }
  reference := hschema
  schema := passes_rightsSchema
  genesis _ := Operation.passes_validate_iff.2 conformsTo_granting
  transitions := List.forall_mem_map.2 fun v _ => List.forall_mem_singleton.2 fun _ =>
    Operation.passes_validate_iff.2 conformsTo_passing
  links := List.forall_mem_map.2 fun v _ => List.forall_mem_singleton.2
    (links_right rfl hgenesis rfl rfl v.number v.carried (Table.mem_entries.1 v.mapped))
  terminals := by
    obtain ⟨w, hw, hconceals⟩ := hhanded
    exact List.forall_mem_singleton.2 ⟨w, hw, List.forall_mem_singleton.2 hconceals⟩
  scripts := by
    show ∀ e ∈ rightsSchema.libSites, _
    rw [libSites_rightsSchema]
    exact List.forall_mem_nil _

/-- The id of a bundle does not depend on the view, so the seal of the last of its views can be handed
over. -/
theorem exists_consistent_handing (hschema : rightsSchema.schemaId = .ok schemaId)
    (hgenesis : (Operation.genesis (granting schemaId)).opId = .ok genesis)
    (v : View genesis first second) : ∃ bundle, v.toBundle.bundle.bundleId = .ok bundle ∧
      ∀ (views : List (View genesis first second)) (w : View genesis first second),
        views.length < 0xffffff →
          (handing schemaId ((views ++ [w]).map View.toBundle) bundle w.secret).Consistent := by
  obtain ⟨bundle, hbundle⟩ : ∃ bundle, v.toBundle.bundle.bundleId = .ok bundle :=
    exists_made.2 (written_inputsOf v)
  refine ⟨bundle, hbundle, fun views w hlength => consistent_handing hschema hgenesis ?_ ?_⟩
  · rw [List.length_append, List.length_singleton]
    omega
  · refine ⟨w.toBundle, ⟨hbundle, views.map View.toBundle, [], ?_, List.forall_mem_nil _⟩,
      View.conceals_iff.2 rfl⟩
    exact List.map_append

/-- Two views of one bundle with seals of their own: in both orders, the seal of the last one can be
handed over. -/
theorem exists_consistent_views (s t : SecretSeal) :
    ∃ (schemaId : SchemaId) (genesis first second : OpId) (bundle : BundleId)
      (v w : View genesis first second), v.secret = s ∧ w.secret = t ∧ v.toBundle ≠ w.toBundle ∧
        v.toBundle.bundle.bundleId = .ok bundle ∧
        (handing schemaId [v.toBundle, w.toBundle] bundle t).Consistent ∧
        (handing schemaId [w.toBundle, v.toBundle] bundle s).Consistent := by
  obtain ⟨schemaId, genesis, first, second, hschema, hgenesis, hfirst, hsecond⟩ := exists_passing s t
  let v : View genesis first second := .ofFirst hfirst
  let w : View genesis first second := .ofSecond hsecond
  obtain ⟨bundle, hbundle, hconsistent⟩ := exists_consistent_handing hschema hgenesis v
  have hne : v.toBundle ≠ w.toBundle := View.toBundle_ne Int.zero_ne_one
  exact ⟨schemaId, genesis, first, second, bundle, v, w, rfl, rfl, hne, hbundle,
    hconsistent [v] w (Nat.le_of_ble_eq_true rfl), hconsistent [w] v (Nat.le_of_ble_eq_true rfl)⟩

/-- The transitions that pass on the two rights of a genesis have different ids, and the genesis has
another one. -/
theorem exists_passing_ne : ∃ (schemaId : SchemaId) (genesis first second : OpId),
    rightsSchema.schemaId = .ok schemaId ∧
      (Operation.genesis (granting schemaId)).opId = .ok genesis ∧
      (passing genesis 0 (zeroId .secretSeal)).opId = .ok first ∧
      (passing genesis 1 (zeroId .secretSeal)).opId = .ok second ∧
      genesis ≠ first ∧ genesis ≠ second ∧ first ≠ second := by
  -- the four ids are computed: that two hashes differ follows from nothing else
  have hall : (do
      let schemaId ← rightsSchema.schemaId
      let genesis ← (Operation.genesis (granting schemaId)).opId
      let first ← (passing genesis 0 (zeroId .secretSeal)).opId
      let second ← (passing genesis 1 (zeroId .secretSeal)).opId
      return decide (genesis ≠ first ∧ genesis ≠ second ∧ first ≠ second)) = .ok true := by
    apply toOption_eq_some.1
    simp only [Schema.schemaId, Operation.opId, Transition.opId, Id.ofContent_eq]
    decide +kernel
  obtain ⟨schemaId, hschema, hall⟩ := bind_eq_ok.1 hall
  obtain ⟨genesis, hgenesis, hall⟩ := bind_eq_ok.1 hall
  obtain ⟨first, hfirst, hall⟩ := bind_eq_ok.1 hall
  obtain ⟨second, hsecond, hall⟩ := bind_eq_ok.1 hall
  exact ⟨schemaId, genesis, first, second, hschema, hgenesis, hfirst, hsecond,
    of_decide_eq_true (pure_eq_ok.1 hall)⟩

/-! ## Acceptance -/

/-- The check of a consignment reports no violation exactly when the consignment is consistent.
Then it is assembled with all its identifiers, and otherwise rejected with all violations. -/
theorem check_passes_iff_consistent (c : Consignment) :
    (c.check.Passes ↔ c.Consistent) ∧ ∃ outcome, c.check.Yields outcome ∧ c.Verdict outcome := by
  refine ⟨passes_check_iff, _, c.check_yields, ?_⟩
  have hassemble := c.assemble_yields
  cases hfindings : c.findings with
  | error e =>
    rw [hfindings] at hassemble
    exact hassemble
  | ok x =>
    obtain ⟨found, ix⟩ := x
    rw [hfindings] at hassemble
    cases found with
    | cons e found => exact hassemble
    | nil =>
      obtain ⟨hconsistent, rfl⟩ := findings_eq_ok_nil.1 hfindings
      obtain ⟨v, hv, hidentifies⟩ := exists_accepted hconsistent.encodable
      refine ⟨v, ?_, hidentifies⟩
      have hjudge : c.judge [] c.indexed = .ok v := by
        unfold judge
        rw [hv]
      rw [← hjudge]
      exact hassemble

/-- A consignment with two views of a bundle and a terminal is consistent, so its check passes and it is
assembled. -/
theorem check_passes_iff_consistent_views :
    ∃ (c : Consignment) (w₁ w₂ : WitnessBundle) (v : ValidConsignment), c.bundles = [w₁, w₂] ∧
      w₁ ≠ w₂ ∧ c.terminals.entries ≠ [] ∧ c.Consistent ∧ c.check.Passes ∧
        c.assemble.Yields (.ok v) ∧ v.Identifies c := by
  obtain ⟨schemaId, _, _, _, bundle, x, y, -, -, hne, -, hconsistent, -⟩ :=
    exists_consistent_views (zeroId .secretSeal) (zeroId .secretSeal)
  obtain ⟨hpasses, outcome, hcheck, hverdict⟩ := check_passes_iff_consistent (handing schemaId _ bundle _)
  obtain rfl := hcheck.unique (hpasses.2 hconsistent)
  obtain ⟨v, hv, hidentifies⟩ := hverdict
  exact ⟨_, _, _, v, rfl, hne, List.cons_ne_nil _ _, hconsistent, hpasses.2 hconsistent, hv,
    hidentifies⟩

end Consignment

end StrictContract
