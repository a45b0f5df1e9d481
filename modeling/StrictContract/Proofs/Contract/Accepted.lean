import StrictContract.Proofs.Contract.Acceptance

/-! # Accepted consignments — what the assembly of a consignment leaves to rely on

A consignment is **accepted** when its assembly gives it back with its identifiers. Then it is
consistent, the genesis has the id of the contract, and every transition is carried under its own
id. -/

namespace StrictContract

/-- A partial function that is defined on all items gives them all. -/
theorem filterMap_eq_map_of_eq_some {α β : Type} {f : α → Option β} {g : α → β} {xs : List α}
    (h : ∀ a ∈ xs, f a = some (g a)) : xs.filterMap f = xs.map g := by
  induction xs with
  | nil => rfl
  | cons a xs ih =>
    rw [List.forall_mem_cons] at h
    rw [List.filterMap_cons, h.1, List.map_cons, ih h.2]

namespace ValidConsignment

/-- An **accepted** consignment: what the assembly of the consignment in it gives. -/
def Accepted (v : ValidConsignment) : Prop := v.consignment.assemble.Yields (.ok v)

variable {v : ValidConsignment}

namespace Accepted

/-- What is accepted is consistent, with all its identifiers. -/
theorem consistent_identifies (h : v.Accepted) :
    v.consignment.Consistent ∧ v.Identifies v.consignment := by
  obtain ⟨⟨found, ix⟩, hfindings, hjudge⟩ :=
    bind_eq_ok.1 (h.unique v.consignment.assemble_yields).symm
  unfold Consignment.judge at hjudge
  dsimp only at hjudge
  split at hjudge
  · rename_i haccepted
    cases hjudge
    obtain ⟨hconsistent, rfl⟩ := Consignment.findings_eq_ok_nil.1 hfindings
    obtain ⟨v', haccepted', hidentifies⟩ := Consignment.exists_accepted hconsistent.encodable
    rw [haccepted, Option.some.injEq] at haccepted'
    exact ⟨hconsistent, haccepted' ▸ hidentifies⟩
  · cases hjudge

theorem consistent (h : v.Accepted) : v.consignment.Consistent := h.consistent_identifies.1

theorem identifies (h : v.Accepted) : v.Identifies v.consignment := h.consistent_identifies.2

/-- The genesis of an accepted consignment has the id of the contract. -/
theorem opId_genesis (h : v.Accepted) :
    (Operation.genesis v.consignment.genesis).opId = .ok (v.contractId.cast .operation) := by
  obtain ⟨id, hid, hcast⟩ := bind_eq_ok.1 h.identifies.contractId
  rw [hid, ← pure_eq_ok.1 hcast]
  rfl

/-- Every bundle of an accepted consignment has an id. -/
theorem exists_bundleId (h : v.Accepted) {w : WitnessBundle} (hw : w ∈ v.consignment.bundles) :
    ∃ id, w.bundle.bundleId = .ok id :=
  ((Consignment.encodable_iff.1 h.consistent.encodable).2.2.1 w hw).1

/-- The operations of an accepted consignment are the genesis under the id of the contract and the
known transitions under the ids that they are carried under. -/
theorem identified_eq (h : v.Accepted) : v.consignment.identified =
    (v.contractId.cast .operation, .genesis v.consignment.genesis) ::
      v.consignment.bundles.flatMap fun w =>
        w.bundle.transitions.map fun e => (e.1, .transition e.2) := by
  rw [Consignment.identified, Consignment.operations, List.filterMap_cons, h.opId_genesis]
  refine congrArg (List.cons _) ?_
  rw [List.filterMap_flatMap, List.flatMap_def, List.flatMap_def]
  refine congrArg List.flatten (List.map_congr_left fun w hw => ?_)
  rw [List.filterMap_map]
  refine filterMap_eq_map_of_eq_some fun e he => ?_
  have hcarried : (Operation.transition e.2).opId = .ok e.1 :=
    (h.consistent.links w hw e (Table.mem_sorted.1 he)).carried
  rw [Function.comp_apply, hcarried]
  rfl

end Accepted

end ValidConsignment

/-- A consistent consignment is accepted with all its identifiers. -/
theorem Consignment.Consistent.exists_accepted {c : Consignment} (h : c.Consistent) :
    ∃ v : ValidConsignment, v.Accepted ∧ v.Identifies c := by
  obtain ⟨v, hv, hidentifies⟩ := Consignment.exists_accepted h.encodable
  have hyields := c.assemble_yields
  have hjudge : c.judge [] c.indexed = .ok v := by
    unfold Consignment.judge
    rw [hv]
  rw [Consignment.findings_eq_ok_nil.2 ⟨h, rfl⟩] at hyields
  refine ⟨v, ?_, hidentifies⟩
  rw [ValidConsignment.Accepted, hidentifies.consignment, ← hjudge]
  exact hyields

namespace Consignment

/-- Views of one bundle in which the two rights of a genesis are passed on, by operations with different
ids: consignments of them are accepted as ones of the same contract. -/
theorem exists_accepted_handing : ∃ (schemaId : SchemaId) (genesis first second : OpId)
    (bundle : BundleId), [genesis, first, second].Nodup ∧
      (Operation.genesis (granting schemaId)).opId = .ok genesis ∧
      (passing genesis 0 (zeroId .secretSeal)).opId = .ok first ∧
      (passing genesis 1 (zeroId .secretSeal)).opId = .ok second ∧
      (∀ v : View genesis first second, v.toBundle.bundle.bundleId = .ok bundle) ∧
      ∀ (views : List (View genesis first second)) (w : View genesis first second),
        views.length < 0xffffff → ∃ v : ValidConsignment, v.Accepted ∧
          v.consignment = handing schemaId ((views ++ [w]).map View.toBundle) bundle w.secret ∧
          v.contractId = genesis.cast .contract := by
  obtain ⟨schemaId, genesis, first, second, hschema, hgenesis, hfirst, hsecond, hne, hne', hne''⟩ :=
    exists_passing_ne
  let x : View genesis first second := .ofFirst hfirst
  obtain ⟨bundle, hbundle, hconsistent⟩ := exists_consistent_handing hschema hgenesis x
  have hnodup : [genesis, first, second].Nodup := by simp [hne, hne', hne'']
  refine ⟨schemaId, genesis, first, second, bundle, hnodup, hgenesis, hfirst, hsecond,
    fun _ => hbundle, fun views w hlength => ?_⟩
  obtain ⟨v, hv, hidentifies⟩ := (hconsistent views w hlength).exists_accepted
  have hcontract : (granting schemaId).contractId = .ok v.contractId := hidentifies.contractId
  rw [show (granting schemaId).contractId = .ok (genesis.cast .contract) from
    bind_eq_ok.2 ⟨genesis, hgenesis, rfl⟩] at hcontract
  exact ⟨v, hv, hidentifies.consignment, (Except.ok.inj hcontract).symm⟩

end Consignment

end StrictContract
