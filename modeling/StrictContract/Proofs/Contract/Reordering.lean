import StrictContract.Proofs.Codec.Reordering
import StrictContract.Proofs.Contract.Consignment
import StrictContract.Proofs.TypeSystem.Reordering

/-! # Records with the same parts — identifiers do not depend on the order of adding

The parts of contract records are added one by one: entries to tables, inputs to transitions, seals to
terminals, definitions to type systems. Two records have the **same parts** when they differ at most in
the order in which these were added. Their values are then reordered with respect to the codec of
their kind, so both have the same bytes and the same identifier, or neither has one. -/

namespace StrictContract

open Codec

/-! ## Tables -/

section

variable {κ α : Type} [DecidableEq κ]

/-- Tables **agree** up to a relation when they have related values under the same keys. -/
def Table.Agrees (R : α → α → Prop) (t u : Table κ α) : Prop :=
  ∀ k, Option.Rel R (t.get? k) (u.get? k)

/-- Tables with the same entries agree. -/
theorem Table.agrees_of_perm {t u : Table κ α} (h : t.entries.Perm u.entries) :
    t.Agrees (· = ·) u := by
  intro k
  rw [get?_eq_of_perm h]
  cases u.get? k with
  | none => exact .none
  | some a => exact .some rfl

/-- The mappings of tables that agree up to reordering are reordered. -/
theorem Table.Agrees.reordered {R : α → α → Prop} {t u : Table κ α} (h : t.Agrees R u)
    {key value : Codec} {f : κ → Value} {g : α → Value}
    (hg : ∀ a b, R a b → value.Reordered (g a) (g b)) {b : Bounds} {label : Option String} :
    (Codec.map key value b .mapping label).Reordered (t.mapping f g) (u.mapping f g) := by
  obtain ⟨xs, ht, hu, hxs⟩ := Table.exists_pairs h
  refine reordered_map (xs.map fun x => ((f x.1.1, g x.1.2), (f x.2.1, g x.2.2))) ?_ ?_
    (List.forall_mem_map.2 fun x hx => ?_)
    (List.forall_mem_map.2 fun x hx => hg _ _ (hxs x hx).2)
  · rw [ht, List.map_map, List.map_map]
    exact .refl _
  · have hmapped := hu.map fun e => (f e.1, g e.2)
    rw [List.map_map] at hmapped ⊢
    exact hmapped
  · rw [(hxs x hx).1]
    exact .refl key _

/-- The mappings of tables with the same values are reordered. -/
theorem Table.Agrees.reordered_eq {t u : Table κ α} (h : t.Agrees (· = ·) u) {key value : Codec}
    {f : κ → Value} {g : α → Value} {b : Bounds} {label : Option String} :
    (Codec.map key value b .mapping label).Reordered (t.mapping f g) (u.mapping f g) :=
  h.reordered fun a _ hab => hab ▸ .refl value (g a)

end

/-! ## Operations -/

/-- States of operations with the same parts. -/
structure OperationState.SameParts (s t : OperationState) : Prop where
  metadata : s.metadata.Agrees (· = ·) t.metadata
  globals : s.globals.Agrees (· = ·) t.globals
  assignments : s.assignments.Agrees (· = ·) t.assignments

/-- Geneses with the same parts. -/
structure Genesis.SameParts (g h : Genesis) : Prop where
  rest : h = { g with state := h.state }
  state : g.state.SameParts h.state

/-- Transitions with the same parts. -/
structure Transition.SameParts (t u : Transition) : Prop where
  rest : u = { t with inputs := u.inputs, state := u.state }
  inputs : t.inputs.Perm u.inputs
  state : t.state.SameParts u.state

/-- Operations with the same parts. -/
inductive Operation.SameParts : Operation → Operation → Prop
  | genesis {g h : Genesis} : g.SameParts h → SameParts (.genesis g) (.genesis h)
  | transition {t u : Transition} : t.SameParts u → SameParts (.transition t) (.transition u)

namespace OperationState.SameParts

variable {s t : OperationState} (h : s.SameParts t)

include h

theorem reordered_metadata : metadataCodec.Reordered s.metadataValue t.metadataValue :=
  h.metadata.reordered_eq

theorem reordered_globals : globalsCodec.Reordered s.globalsValue t.globalsValue :=
  h.globals.reordered_eq

theorem reordered_assignments : assignmentsCodec.Reordered s.assignmentsValue t.assignmentsValue :=
  h.assignments.reordered_eq

end OperationState.SameParts

/-- Geneses with the same parts are reordered. -/
theorem Genesis.SameParts.reordered {g h : Genesis} (hsame : g.SameParts h) :
    Genesis.codec.Reordered g.toValue h.toValue := by
  obtain ⟨hrest, hstate⟩ := hsame
  rw [hrest]
  refine reordered_record_of_fields (by decide) ?_
  exact ⟨rfl, rfl, .refl _ _, rfl, rfl, .refl _ _, rfl, rfl, .refl _ _, rfl, rfl, .refl _ _, rfl, rfl,
    .refl _ _, rfl, rfl, hstate.reordered_metadata, rfl, rfl, hstate.reordered_globals, rfl, rfl,
    hstate.reordered_assignments, trivial⟩

/-- Transitions with the same parts are reordered. -/
theorem Transition.SameParts.reordered {t u : Transition} (hsame : t.SameParts u) :
    Transition.codec.Reordered t.toValue u.toValue := by
  obtain ⟨hrest, hinputs, hstate⟩ := hsame
  rw [hrest]
  refine reordered_record_of_fields (by decide) ?_
  exact ⟨rfl, rfl, .refl _ _, rfl, rfl, .refl _ _, rfl, rfl, .refl _ _, rfl, rfl,
    hstate.reordered_metadata, rfl, rfl, hstate.reordered_globals, rfl, rfl,
    reordered_set_of_perm rfl rfl (hinputs.map _), rfl, rfl, hstate.reordered_assignments, trivial⟩

/-- Operations with the same parts are reordered. -/
theorem Operation.SameParts.reordered {a b : Operation} (h : a.SameParts b) :
    Operation.codec.Reordered a.toValue b.toValue := by
  have hgenesis : Genesis.codec.accepts (.record "Transition" []) ≠ true := by decide
  have htransition : Transition.codec.accepts (.record "Genesis" []) ≠ true := by decide
  -- of the two variants only that of the operation accepts its record
  cases h with
  | genesis h =>
    refine reordered_union_record ?_
    refine List.forall_mem_cons.2 ⟨fun _ => h.reordered, List.forall_mem_cons.2 ⟨?_, nofun⟩⟩
    exact fun haccepts => absurd haccepts htransition
  | transition h =>
    refine reordered_union_record ?_
    refine List.forall_mem_cons.2 ⟨?_, List.forall_mem_cons.2 ⟨fun _ => h.reordered, nofun⟩⟩
    exact fun haccepts => absurd haccepts hgenesis

/-! ## Schemas -/

/-- Shapes of operations with the same parts. -/
structure OperationSchema.SameParts (s t : OperationSchema) : Prop where
  metadata : s.metadata.Agrees (· = ·) t.metadata
  globals : s.globals.Agrees (· = ·) t.globals
  inputs : Option.Rel (Table.Agrees (· = ·)) s.inputs t.inputs
  assignments : s.assignments.Agrees (· = ·) t.assignments
  validator : s.validator = t.validator

/-- Schemas with the same parts. -/
structure Schema.SameParts (s t : Schema) : Prop where
  name : s.name = t.name
  metaTypes : s.metaTypes.Agrees (· = ·) t.metaTypes
  globalTypes : s.globalTypes.Agrees (· = ·) t.globalTypes
  ownedTypes : s.ownedTypes.Agrees (· = ·) t.ownedTypes
  genesis : s.genesis.SameParts t.genesis
  transitions : s.transitions.Agrees (fun d e => d.name = e.name ∧ d.shape.SameParts e.shape)
    t.transitions

/-- Shapes with the same parts are reordered, for a genesis and for a transition. -/
theorem OperationSchema.SameParts.reordered {s t : OperationSchema} (h : s.SameParts t) :
    Schema.genesisCodec.Reordered s.toValue t.toValue ∧
      Schema.transitionCodec.Reordered s.toValue t.toValue := by
  have hbounds : ∀ {a b : Table Int Occurrences}, a.Agrees (· = ·) b →
      Occurrences.tableCodec.Reordered (a.toValue Occurrences.toValue)
        (b.toValue Occurrences.toValue) := fun hab =>
    hab.reordered_eq (f := .int) (g := Occurrences.toValue)
  have hmetadata := hbounds h.metadata
  have hglobals := hbounds h.globals
  have hassignments := hbounds h.assignments
  obtain ⟨metadata, globals, inputs, assignments, validator⟩ := s
  obtain ⟨metadata', globals', inputs', assignments', validator'⟩ := t
  obtain rfl : validator = validator' := h.validator
  cases h.inputs with
  | none =>
    constructor <;> refine reordered_record (by simp) rfl ?_ <;>
      simp [List.lookup_cons, Reordered.refl, hmetadata, hglobals, hassignments]
  | some hinputs =>
    have hinputs := hbounds hinputs
    constructor <;> refine reordered_record (by simp) rfl ?_ <;>
      simp [List.lookup_cons, Reordered.refl, hmetadata, hglobals, hassignments, hinputs]

/-- Schemas with the same parts are reordered. -/
theorem Schema.SameParts.reordered {s t : Schema} (h : s.SameParts t) :
    Schema.codec.Reordered s.toValue t.toValue := by
  -- the shape of every transition has tables of its own
  have hdetails : ∀ d e : TransitionDetails, d.name = e.name ∧ d.shape.SameParts e.shape →
      transitionDetailsCodec.Reordered (transitionDetailsValue d) (transitionDetailsValue e) := by
    rintro d e ⟨hname, hshape⟩
    refine reordered_record_of_fields (by decide) ?_
    exact ⟨rfl, rfl, hshape.reordered.2, rfl, rfl, hname ▸ .refl _ _, trivial⟩
  refine reordered_record_of_fields (by decide) ?_
  exact ⟨rfl, rfl, h.name ▸ .refl _ _, rfl, rfl, h.metaTypes.reordered_eq, rfl, rfl,
    h.globalTypes.reordered_eq, rfl, rfl, h.ownedTypes.reordered_eq, rfl, rfl, h.genesis.reordered.1,
    rfl, rfl, h.transitions.reordered hdetails, trivial⟩

/-! ## Bundles -/

/-- Bundles with the same parts. -/
structure Bundle.SameParts (a b : Bundle) : Prop where
  inputMap : a.inputMap.Agrees (· = ·) b.inputMap
  known : a.known.Agrees Transition.SameParts b.known

/-- Bundles with their witnesses, with the same parts. -/
structure WitnessBundle.SameParts (a b : WitnessBundle) : Prop where
  witness : a.witness = b.witness
  bundle : a.bundle.SameParts b.bundle

/-- Bundles with the same parts have reordered input maps. -/
theorem Bundle.SameParts.reordered_inputMap {a b : Bundle} (h : a.SameParts b) :
    Bundle.inputMapCodec.Reordered a.inputMapValue b.inputMapValue :=
  h.inputMap.reordered_eq

/-- Bundles with the same parts are reordered. -/
theorem Bundle.SameParts.reordered {a b : Bundle} (h : a.SameParts b) :
    Bundle.codec.Reordered a.toValue b.toValue := by
  refine reordered_record_of_fields (by decide) ?_
  exact ⟨rfl, rfl, h.reordered_inputMap, rfl, rfl,
    h.known.reordered fun t u htu => htu.reordered, trivial⟩

/-- Bundles with their witnesses, with the same parts, are reordered. -/
theorem WitnessBundle.SameParts.reordered {a b : WitnessBundle} (h : a.SameParts b) :
    WitnessBundle.codec.Reordered a.toValue b.toValue := by
  refine reordered_record_of_fields (by decide) ?_
  exact ⟨rfl, rfl, h.witness ▸ .refl _ _, rfl, rfl, h.bundle.reordered, trivial⟩

/-! ## Consignments -/

/-- Consignments with the same parts. The bundles come in the same order, which counts. -/
structure Consignment.SameParts (c d : Consignment) : Prop where
  version : c.version = d.version
  transfer : c.transfer = d.transfer
  terminals : c.terminals.Agrees List.Perm d.terminals
  genesis : c.genesis.SameParts d.genesis
  bundles : ∃ xs : List (WitnessBundle × WitnessBundle), c.bundles = xs.map Prod.fst ∧
    d.bundles = xs.map Prod.snd ∧ ∀ x ∈ xs, x.1.SameParts x.2
  schema : c.schema.SameParts d.schema
  types : c.types.entries.Perm d.types.entries
  scripts : c.scripts.Perm d.scripts

/-- Consignments with the same parts are reordered. -/
theorem Consignment.SameParts.reordered {c d : Consignment} (h : c.SameParts d) :
    Consignment.codec.Reordered c.toValue d.toValue := by
  obtain ⟨xs, hc, hd, hxs⟩ := h.bundles
  have hbundles : (Codec.list WitnessBundle.codec { min := 0, max := 0xffffff } none).Reordered
      (.tuple (c.bundles.map WitnessBundle.toValue)) (.tuple (d.bundles.map WitnessBundle.toValue)) := by
    refine @Reordered.list _ _ _ _ _ (xs.map fun x => (x.1.toValue, x.2.toValue)) ?_ ?_
      (List.forall_mem_map.2 fun x hx => (hxs x hx).reordered)
    · rw [hc, List.map_map, List.map_map]
      rfl
    · rw [hd, List.map_map, List.map_map]
      rfl
  have hseals : ∀ a b : List SecretSeal, a.Perm b →
      (Codec.set (.id .secretSeal) .tinyNonempty .members none).Reordered (sealsValue a)
        (sealsValue b) := fun a b hab => reordered_set_of_perm rfl rfl (hab.map _)
  refine reordered_record_of_fields (by decide) ?_
  exact ⟨rfl, rfl, h.version ▸ .refl _ _, rfl, rfl, h.transfer ▸ .refl _ _, rfl, rfl,
    h.terminals.reordered (f := .id .bundle) (g := sealsValue) hseals, rfl, rfl, h.genesis.reordered,
    rfl, rfl, hbundles, rfl, rfl, h.schema.reordered, rfl, rfl, TypeSystem.reordered_of_perm h.types,
    rfl, rfl, reordered_set_of_perm rfl rfl (h.scripts.map _), trivial⟩

/-! ## Encodings and identifiers -/

/-- Reordered values are identified alike. -/
theorem Codec.Reordered.identifier_eq_ok {c : Codec} {v w : Value} (h : c.Reordered v w)
    {kind : IdKind} (id : Id kind) : (do return Id.ofContent kind (← c.write v)) = Except.ok id ↔
      (do return Id.ofContent kind (← c.write w)) = Except.ok id := by
  simp only [bind_eq_ok, h.write_eq_ok]

/-- Rearranged drafts are identified alike. -/
theorem Draft.Rearranged.semId_eq_ok {d e : Draft} (h : Draft.Rearranged d e) (id : SemId) :
    d.semId = .ok id ↔ e.semId = .ok id := by
  have hback : Draft.Rearranged e d := by
    cases h with
    | refl => exact .refl d
    | union h => exact .union h.symm
  have hencode : ∀ p, d.encode = .ok p ↔ e.encode = .ok p := fun p =>
    ⟨h.encode_eq_ok, hback.encode_eq_ok⟩
  rw [semId, semId, bind_eq_ok, bind_eq_ok]
  simp only [hencode]

/-- **Encoding ignores the order in which parts are supplied.** Values that are reordered with respect
to a codec are written as the same bytes, or neither is written. So are type systems with the same
definitions; and grown systems with the same ids, in particular those in which the same drafts were
inserted in two orders, unless two of their definitions clash. Definitions, operations, bundles,
bundles with their witnesses, schemas and consignments with the same parts have the same identifier,
or neither has one. -/
theorem encoding_ignores_order :
    (∀ (c : Codec) (v w : Value), c.Reordered v w → ∀ p, c.write v = .ok p ↔ c.write w = .ok p) ∧
    (∀ ts ts' : TypeSystem, ts.entries.Perm ts'.entries →
      ∀ p, ts.encode = .ok p ↔ ts'.encode = .ok p) ∧
    (∀ ts ts' : TypeSystem, TypeSystem.Grown ts → TypeSystem.Grown ts' →
      (∀ sid, ts.contains sid = true ↔ ts'.contains sid = true) →
      (∀ p, ts.encode = .ok p ↔ ts'.encode = .ok p) ∨ ts.Clash ts') ∧
    (∀ (start ts ts' : TypeSystem) (ds es : List Draft), TypeSystem.Grown start → ds.Perm es →
      start.insertAll ds = .ok ts → start.insertAll es = .ok ts' →
      (∀ p, ts.encode = .ok p ↔ ts'.encode = .ok p) ∨ ts.Clash ts') ∧
    (∀ d e : Draft, Draft.Rearranged d e → ∀ id, d.semId = .ok id ↔ e.semId = .ok id) ∧
    (∀ a b : Operation, a.SameParts b → ∀ id, a.opId = .ok id ↔ b.opId = .ok id) ∧
    (∀ a b : Bundle, a.SameParts b → ∀ id, a.bundleId = .ok id ↔ b.bundleId = .ok id) ∧
    (∀ a b : WitnessBundle, a.SameParts b →
      ∀ id, a.discloseHash = .ok id ↔ b.discloseHash = .ok id) ∧
    (∀ s t : Schema, s.SameParts t → ∀ id, s.schemaId = .ok id ↔ t.schemaId = .ok id) ∧
    (∀ c d : Consignment, c.SameParts d →
      ∀ id, c.consignmentId = .ok id ↔ d.consignmentId = .ok id) := by
  refine ⟨fun c v w => Reordered.write_eq_ok, fun ts ts' => TypeSystem.encode_eq_ok_of_perm, ?_, ?_,
    fun d e => Draft.Rearranged.semId_eq_ok, ?_, ?_, ?_, ?_, ?_⟩
  · intro ts ts' hts hts' hids
    have hentries := hts.reachable.wellFormed.perm_or_clash hts'.reachable.wellFormed hids
    exact hentries.imp_left TypeSystem.encode_eq_ok_of_perm
  · intro start ts ts' ds es hstart hperm hds hes
    have hentries := hstart.reachable.wellFormed.insertAll_perm_or_clash hperm hds hes
    exact hentries.imp_left TypeSystem.encode_eq_ok_of_perm
  · exact fun a b h => h.reordered.identifier_eq_ok
  · exact fun a b h => h.reordered_inputMap.identifier_eq_ok
  · exact fun a b h => h.reordered.identifier_eq_ok
  · exact fun s t h => h.reordered.identifier_eq_ok
  · exact fun c d h => h.reordered.identifier_eq_ok

/-- Three numbers in two orders are written as the same set, and two definitions that are inserted in
two orders give systems with the same bytes, unless the definitions clash. -/
theorem encoding_ignores_order_of_supply :
    (∃ p, (Codec.set (.uint 2) .short .members none).write (.list [.int 5, .int 1, .int 3]) = .ok p ∧
      (Codec.set (.uint 2) .short .members none).write (.list [.int 3, .int 5, .int 1]) = .ok p) ∧
    ∃ ts ts', TypeSystem.empty.insertAll [TypeDef.unit.toDraft, TypeDef.bool.toDraft] = .ok ts ∧
      TypeSystem.empty.insertAll [TypeDef.bool.toDraft, TypeDef.unit.toDraft] = .ok ts' ∧
      ((∀ p, ts.encode = .ok p ↔ ts'.encode = .ok p) ∨ ts.Clash ts') := by
  obtain ⟨hwrite, -, -, hinsert, -, -, -, -, -, -⟩ := encoding_ignores_order
  constructor
  · have hfirst : (Codec.set (.uint 2) .short .members none).write
        (.list [.int 5, .int 1, .int 3]) = .ok [3, 0, 1, 0, 3, 0, 5, 0] := by
      refine write_set_iff_carried.2 ⟨_, [[1, 0], [3, 0], [5, 0]], rfl,
        ⟨[(.int 5, [5, 0]), (.int 1, [1, 0]), (.int 3, [3, 0])], rfl, by decide, ?_⟩, by decide, rfl,
        rfl⟩
      simp only [List.forall_mem_cons, List.not_mem_nil, false_implies, implies_true, and_true]
      exact ⟨rfl, rfl, rfl⟩
    have hperm : [Value.int 5, Value.int 1, Value.int 3].Perm [.int 3, .int 5, .int 1] :=
      @List.perm_append_comm _ [Value.int 5, Value.int 1] [Value.int 3]
    exact ⟨_, hfirst, (hwrite _ _ _ (reordered_set_of_perm rfl rfl hperm) _).1 hfirst⟩
  · have hunit : TypeSystem.StandsAlone TypeDef.unit.toDraft :=
      ⟨rfl, rfl, ⟨_, bind_eq_ok.2 ⟨[0, 0], toOption_eq_some.1 (by decide +kernel), rfl⟩⟩, ⟨_, rfl⟩⟩
    have hbool : TypeSystem.StandsAlone TypeDef.bool.toDraft :=
      ⟨toOption_eq_some.1 (by decide +kernel), rfl, ⟨_, bind_eq_ok.2 ⟨TypeSystem.boolOctets,
        toOption_eq_some.1 (by decide +kernel), rfl⟩⟩, ⟨_, rfl⟩⟩
    obtain ⟨ts, hts⟩ : ∃ ts, TypeSystem.empty.insertAll [TypeDef.unit.toDraft, TypeDef.bool.toDraft] =
        .ok ts := TypeSystem.exists_insertAll (by simp [hunit, hbool]) (by decide)
    obtain ⟨ts', hts'⟩ : ∃ ts, TypeSystem.empty.insertAll
        [TypeDef.bool.toDraft, TypeDef.unit.toDraft] = .ok ts :=
      TypeSystem.exists_insertAll (by simp [hunit, hbool]) (by decide)
    exact ⟨ts, ts', hts, hts', hinsert _ _ _ _ _ .empty (.swap ..) hts hts'⟩

end StrictContract
