import StrictContract.Proofs.Codec.Iteration
import StrictContract.Proofs.Codec.Written
import StrictContract.Proofs.Contract.Reordering

/-! # Sole faults — records that fail alike in any order

A fault names the first part without an encoding that a writer meets, and the keys of tables, the
inputs of transitions and scripts are met in the order in which they were supplied. Where each of these
collections has at most one **sole fault**, records with the same parts have the same outcome, be it
bytes or a failure. -/

namespace StrictContract

open Codec

/-! ## Sole faults -/

/-- At most one key of a table by type number has no encoding. -/
def Table.SoleFault {α : Type} (t : Table Int α) : Prop := (Codec.uint 2).SoleFault (t.keys.map .int)

/-- The tables of a state have at most one fault each. -/
structure OperationState.SoleFaults (s : OperationState) : Prop where
  metadata : s.metadata.SoleFault
  globals : s.globals.SoleFault
  assignments : s.assignments.SoleFault

/-- The inputs and the tables of a transition have at most one fault each. -/
structure Transition.SoleFaults (t : Transition) : Prop where
  inputs : Opout.codec.SoleFault (t.inputs.map Opout.toValue)
  state : t.state.SoleFaults

/-- The tables of a shape have at most one fault each. -/
structure OperationSchema.SoleFaults (s : OperationSchema) : Prop where
  metadata : s.metadata.SoleFault
  globals : s.globals.SoleFault
  inputs : ∀ t ∈ s.inputs, t.SoleFault
  assignments : s.assignments.SoleFault

/-- The tables of a schema have at most one fault each. -/
structure Schema.SoleFaults (s : Schema) : Prop where
  metaTypes : s.metaTypes.SoleFault
  globalTypes : s.globalTypes.SoleFault
  ownedTypes : s.ownedTypes.SoleFault
  genesis : s.genesis.SoleFaults
  transitions : s.transitions.SoleFault
  shapes : ∀ e ∈ s.transitions.entries, e.2.shape.SoleFaults

/-- The input map of a bundle has at most one fault, and so has every part of its known transitions. -/
structure Bundle.SoleFaults (b : Bundle) : Prop where
  inputMap : Opout.codec.SoleFault (b.inputMap.keys.map Opout.toValue)
  known : ∀ e ∈ b.known.entries, e.2.SoleFaults

/-- Every set and every table of a consignment has at most one fault. -/
structure Consignment.SoleFaults (c : Consignment) : Prop where
  genesis : c.genesis.state.SoleFaults
  bundles : ∀ w ∈ c.bundles, w.bundle.SoleFaults
  schema : c.schema.SoleFaults
  scripts : libraryCodec.SoleFault (c.scripts.map .bytes)

/-- Values that all have encodings have no fault. -/
theorem Codec.soleFault_of_written {c : Codec} {vs : List Value} (h : ∀ v ∈ vs, c.Written v) :
    c.SoleFault vs := by
  intro v hv _ _ hnone
  obtain ⟨p, hp⟩ := h v hv
  exact absurd hp (hnone p)

/-! ## Tables -/

/-- The mappings of tables that agree up to how their values are written are written with the same
outcome. -/
theorem Table.Agrees.write_eq {κ α : Type} [DecidableEq κ] {R : α → α → Prop} {t u : Table κ α}
    (h : t.Agrees R u) {key value : Codec} {f : κ → Value} {g : α → Value}
    (hg : ∀ e ∈ t.entries, ∀ b, R e.2 b → value.write (g e.2) = value.write (g b))
    (hsole : key.SoleFault (t.keys.map f)) {b : Bounds} {label : Option String} :
    (Codec.map key value b .mapping label).write (t.mapping f g) =
      (Codec.map key value b .mapping label).write (u.mapping f g) := by
  obtain ⟨xs, ht, hu, hxs⟩ := Table.exists_pairs h
  refine @write_map_of_paired _ _ _ _ _ _ _
    (xs.map fun x => ((f x.1.1, g x.1.2), (f x.2.1, g x.2.2))) ?_ ?_
    (List.forall_mem_map.2 fun x hx => congrArg f (hxs x hx).1)
    (List.forall_mem_map.2 fun x hx => hg x.1 ?_ _ (hxs x hx).2) ?_
  · rw [ht, List.map_map, List.map_map]
    exact .refl _
  · have hmapped := hu.map fun e => (f e.1, g e.2)
    rw [List.map_map] at hmapped ⊢
    exact hmapped
  · rw [ht]
    exact List.mem_map_of_mem hx
  · rw [keys, List.map_map] at hsole
    rw [List.map_map]
    exact hsole

/-- The mappings of tables with the same values are written with the same outcome. -/
theorem Table.Agrees.write_eq_of_eq {κ α : Type} [DecidableEq κ] {t u : Table κ α}
    (h : t.Agrees (· = ·) u) {key value : Codec} {f : κ → Value} {g : α → Value}
    (hsole : key.SoleFault (t.keys.map f)) {b : Bounds} {label : Option String} :
    (Codec.map key value b .mapping label).write (t.mapping f g) =
      (Codec.map key value b .mapping label).write (u.mapping f g) :=
  h.write_eq (fun e _ b hb => by rw [show e.2 = b from hb]) hsole

/-- Ids as keys have no fault. -/
theorem soleFault_ids {kind : IdKind} (ids : List (Id kind)) :
    (Codec.id kind).SoleFault (ids.map (.id kind)) :=
  soleFault_of_written (List.forall_mem_map.2 fun x _ => written_id kind x)

/-! ## Operations -/

namespace OperationState.SameParts

variable {s t : OperationState} (h : s.SameParts t) (hsole : s.SoleFaults)

include h hsole

theorem write_metadata : metadataCodec.write s.metadataValue = metadataCodec.write t.metadataValue :=
  h.metadata.write_eq_of_eq (f := .int) hsole.metadata

theorem write_globals : globalsCodec.write s.globalsValue = globalsCodec.write t.globalsValue :=
  h.globals.write_eq_of_eq (f := .int) hsole.globals

theorem write_assignments :
    assignmentsCodec.write s.assignmentsValue = assignmentsCodec.write t.assignmentsValue :=
  h.assignments.write_eq_of_eq (f := .int) hsole.assignments

end OperationState.SameParts

theorem Genesis.SameParts.write_eq {g h : Genesis} (hsame : g.SameParts h)
    (hsole : g.state.SoleFaults) : codec.write g.toValue = codec.write h.toValue := by
  obtain ⟨hrest, hstate⟩ := hsame
  rw [hrest]
  refine write_record_of_sameOutcomes (by decide) ?_
  exact ⟨rfl, rfl, rfl, rfl, rfl, rfl, rfl, rfl, rfl, rfl, rfl, rfl, rfl, rfl, rfl, rfl, rfl,
    hstate.write_metadata hsole, rfl, rfl, hstate.write_globals hsole, rfl, rfl,
    hstate.write_assignments hsole, trivial⟩

theorem Transition.SameParts.write_eq {t u : Transition} (hsame : t.SameParts u)
    (hsole : t.SoleFaults) : codec.write t.toValue = codec.write u.toValue := by
  obtain ⟨hrest, hinputs, hstate⟩ := hsame
  rw [hrest]
  refine write_record_of_sameOutcomes (by decide) ?_
  exact ⟨rfl, rfl, rfl, rfl, rfl, rfl, rfl, rfl, rfl, rfl, rfl, hstate.write_metadata hsole.state, rfl,
    rfl, hstate.write_globals hsole.state, rfl, rfl,
    write_set_of_perm (hinputs.map _) hsole.inputs, rfl, rfl, hstate.write_assignments hsole.state,
    trivial⟩

/-- Geneses with the same parts are encoded with the same outcome. -/
theorem Genesis.SameParts.encode_eq {g h : Genesis} (hsame : g.SameParts h)
    (hsole : g.state.SoleFaults) : (Operation.genesis g).encode = (Operation.genesis h).encode := by
  have htransition : Transition.codec.accepts (.record "Genesis" []) ≠ true := by decide
  refine write_union_of_variants (List.forall_mem_cons.2 ⟨fun _ => hsame.write_eq hsole,
    List.forall_mem_singleton.2 fun haccepts => absurd haccepts htransition⟩)

/-- Transitions with the same parts are encoded with the same outcome. -/
theorem Transition.SameParts.encode_eq {t u : Transition} (hsame : t.SameParts u)
    (hsole : t.SoleFaults) :
    (Operation.transition t).encode = (Operation.transition u).encode := by
  have hgenesis : Genesis.codec.accepts (.record "Transition" []) ≠ true := by decide
  refine write_union_of_variants (List.forall_mem_cons.2 ⟨fun haccepts => absurd haccepts hgenesis,
    List.forall_mem_singleton.2 fun _ => hsame.write_eq hsole⟩)

/-! ## Schemas -/

namespace OperationSchema.SameParts

variable {s t : OperationSchema} (h : s.SameParts t) (hsole : s.SoleFaults)

include h hsole

/-- Shapes of geneses with the same parts are written with the same outcome. -/
theorem write_genesis (hs : s.inputs = none) :
    Schema.genesisCodec.write s.toValue = Schema.genesisCodec.write t.toValue := by
  have ht : t.inputs = none := by
    have hinputs := h.inputs
    rw [hs] at hinputs
    generalize t.inputs = x at hinputs
    cases hinputs
    rfl
  rw [toValue, toValue, hs, ht, h.validator]
  refine write_record_of_sameOutcomes (by decide) ?_
  exact ⟨rfl, rfl, h.metadata.write_eq_of_eq (f := .int) hsole.metadata, rfl, rfl,
    h.globals.write_eq_of_eq (f := .int) hsole.globals, rfl, rfl,
    h.assignments.write_eq_of_eq (f := .int) hsole.assignments, rfl, rfl, rfl, trivial⟩

/-- Shapes of transitions with the same parts are written with the same outcome. -/
theorem write_transition (hs : s.inputs.isSome = true) :
    Schema.transitionCodec.write s.toValue = Schema.transitionCodec.write t.toValue := by
  obtain ⟨inputs, hs⟩ := Option.isSome_iff_exists.1 hs
  obtain ⟨inputs', ht, hinputs⟩ :
      ∃ inputs', t.inputs = some inputs' ∧ inputs.Agrees (· = ·) inputs' := by
    have hinputs := h.inputs
    rw [hs] at hinputs
    generalize t.inputs = x at hinputs
    cases hinputs with
    | some hinputs => exact ⟨_, rfl, hinputs⟩
  rw [toValue, toValue, hs, ht, h.validator]
  refine write_record_of_sameOutcomes (by decide) ?_
  exact ⟨rfl, rfl, h.metadata.write_eq_of_eq (f := .int) hsole.metadata, rfl, rfl,
    h.globals.write_eq_of_eq (f := .int) hsole.globals, rfl, rfl,
    hinputs.write_eq_of_eq (f := .int) (hsole.inputs inputs hs), rfl, rfl,
    h.assignments.write_eq_of_eq (f := .int) hsole.assignments, rfl, rfl, rfl, trivial⟩

end OperationSchema.SameParts

/-- Regular schemas with the same parts are encoded with the same outcome. -/
theorem Schema.SameParts.encode_eq {s t : Schema} (h : s.SameParts t) (hsole : s.SoleFaults)
    (hs : s.Regular) : s.encode = t.encode := by
  have hdetails : ∀ e ∈ s.transitions.entries, ∀ d : TransitionDetails,
      e.2.name = d.name ∧ e.2.shape.SameParts d.shape →
      transitionDetailsCodec.write (transitionDetailsValue e.2) =
        transitionDetailsCodec.write (transitionDetailsValue d) := by
    rintro e he d ⟨hname, hshape⟩
    refine write_record_of_sameOutcomes (by decide) ?_
    exact ⟨rfl, rfl, hshape.write_transition (hsole.shapes e he) (hs.transitions e he), rfl, rfl,
      by rw [hname], trivial⟩
  refine write_record_of_sameOutcomes (by decide) ?_
  exact ⟨rfl, rfl, by rw [h.name], rfl, rfl, h.metaTypes.write_eq_of_eq (f := .int) hsole.metaTypes, rfl,
    rfl, h.globalTypes.write_eq_of_eq (f := .int) hsole.globalTypes, rfl, rfl,
    h.ownedTypes.write_eq_of_eq (f := .int) hsole.ownedTypes, rfl, rfl,
    h.genesis.write_genesis hsole.genesis hs.genesis, rfl, rfl,
    h.transitions.write_eq (f := .int) hdetails hsole.transitions, trivial⟩

/-! ## Bundles -/

namespace Bundle.SameParts

variable {a b : Bundle} (h : a.SameParts b) (hsole : a.SoleFaults)

include h hsole

theorem write_inputMap : inputMapCodec.write a.inputMapValue = inputMapCodec.write b.inputMapValue :=
  h.inputMap.write_eq_of_eq (f := Opout.toValue) hsole.inputMap

/-- Bundles with the same parts are written with the same outcome. -/
theorem write_eq : codec.write a.toValue = codec.write b.toValue := by
  refine write_record_of_sameOutcomes (by decide) ?_
  exact ⟨rfl, rfl, h.write_inputMap hsole, rfl, rfl,
    h.known.write_eq (f := .id .operation) (fun e he t ht => ht.write_eq (hsole.known e he))
      (soleFault_ids _), trivial⟩

end Bundle.SameParts

/-- Bundles with their witnesses, with the same parts, are written with the same outcome. -/
theorem WitnessBundle.SameParts.write_eq {a b : WitnessBundle} (h : a.SameParts b)
    (hsole : a.bundle.SoleFaults) : codec.write a.toValue = codec.write b.toValue := by
  refine write_record_of_sameOutcomes (by decide) ?_
  exact ⟨rfl, rfl, by rw [h.witness], rfl, rfl, h.bundle.write_eq hsole, trivial⟩

/-! ## Consignments -/

/-- Well-formed type systems with the same definitions are written with the same outcome. -/
theorem TypeSystem.WellFormed.write_eq_of_perm {ts ts' : TypeSystem} (hts : ts.WellFormed)
    (h : ts.entries.Perm ts'.entries) : codec.write ts.toValue = codec.write ts'.toValue := by
  obtain ⟨octets, hoctets, -⟩ := hts.exists_decode
  exact hoctets.trans ((encode_eq_ok_of_perm h octets).1 hoctets).symm

/-- Consignments with the same parts are encoded with the same outcome. -/
theorem Consignment.SameParts.encode_eq {c d : Consignment} (h : c.SameParts d)
    (hsole : c.SoleFaults) (hschema : c.schema.Regular) (htypes : c.types.WellFormed) :
    c.encode = d.encode := by
  have hbundles : (Codec.list WitnessBundle.codec { min := 0, max := 0xffffff } none).write
      (.tuple (c.bundles.map WitnessBundle.toValue)) =
      (Codec.list WitnessBundle.codec { min := 0, max := 0xffffff } none).write
        (.tuple (d.bundles.map WitnessBundle.toValue)) := by
    obtain ⟨xs, hc, hd, hxs⟩ := h.bundles
    have hwrite := @write_list_of_paired WitnessBundle.codec { min := 0, max := 0xffffff } none
      (xs.map fun x => (x.1.toValue, x.2.toValue)) (List.forall_mem_map.2 fun x hx =>
        (hxs x hx).write_eq (hsole.bundles x.1 (hc ▸ List.mem_map_of_mem hx)))
    rw [hc, hd, List.map_map, List.map_map]
    rwa [List.map_map, List.map_map] at hwrite
  have hterminals : terminalsCodec.write (c.terminals.mapping (.id .bundle) sealsValue) =
      terminalsCodec.write (d.terminals.mapping (.id .bundle) sealsValue) :=
    h.terminals.write_eq (f := .id .bundle)
      (fun e _ seals hseals => write_set_of_perm (hseals.map _) (soleFault_ids _)) (soleFault_ids _)
  refine write_record_of_sameOutcomes (by decide) ?_
  exact ⟨rfl, rfl, by rw [h.version], rfl, rfl, by rw [h.transfer], rfl, rfl, hterminals, rfl, rfl,
    h.genesis.write_eq hsole.genesis, rfl, rfl, hbundles, rfl, rfl,
    h.schema.encode_eq hsole.schema hschema, rfl, rfl, htypes.write_eq_of_perm h.types, rfl, rfl,
    write_set_of_perm (h.scripts.map _) hsole.scripts, trivial⟩

end StrictContract
