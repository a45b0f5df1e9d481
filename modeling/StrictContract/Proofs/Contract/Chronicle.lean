import StrictContract.Proofs.Contract.Replay

/-! # Chronicles — operations in the order in which a state learns of them

A **chronicle** lists operations together with where they stand, in the order in which they are applied.
An accepted consignment tells one: its genesis, then the transitions of its bundles. To apply the
consignment is to take over the limits of its schema, to **perform** what it tells entry by entry, and to
drop what is spent, and this never fails. What depends on the order of operations, or on the witnesses
under which they arrive, is said of chronicles. -/

namespace StrictContract

/-- A loop keeps what every round of it keeps. -/
theorem foldl_keeps {σ α β : Type} {f : σ → α → σ} (π : σ → β) (hf : ∀ s a, π (f s a) = π s)
    {xs : List α} {s : σ} : π (xs.foldl f s) = π s := by
  induction xs generalizing s with
  | nil => rfl
  | cons a xs ih => rw [List.foldl_cons, ih, hf]

/-- A **chronicle**: operations with where they stand, in order. -/
abbrev Chronicle : Type := List (ContractState.Origin × Operation)

/-- The history of a chronicle: its operations with their ids. -/
def Chronicle.history (h : Chronicle) : History := h.map fun x => (x.1.opId, x.2)

namespace ValidConsignment

/-- What an accepted consignment **tells**: its genesis, and the transitions of its bundles with their
witnesses. -/
def told (v : ValidConsignment) : Chronicle :=
  (⟨v.contractId.cast .operation, none, none⟩, .genesis v.consignment.genesis) ::
    v.consignment.bundles.flatMap fun w => w.bundle.transitions.map fun e =>
      (⟨e.1, some w.witness.witnessId, w.bundle.bundleId.toOption⟩, .transition e.2)

/-- The **chronicle** of consignments: what they tell one after another. -/
def chronicle (vs : List ValidConsignment) : Chronicle := vs.flatMap told

/-- What an accepted consignment tells are its operations with their ids. -/
theorem Accepted.history_told {v : ValidConsignment} (h : v.Accepted) :
    v.told.history = v.consignment.identified := by
  rw [h.identified_eq, Chronicle.history, told, List.map_cons, List.map_flatMap]
  simp only [List.map_map]
  rfl

/-- Every entry of what an accepted consignment tells is an operation of it with its id. -/
theorem Accepted.mem_identified {v : ValidConsignment} (h : v.Accepted)
    {x : ContractState.Origin × Operation} (hx : x ∈ v.told) :
    (x.1.opId, x.2) ∈ v.consignment.identified := by
  rw [← h.history_told]
  exact List.mem_map_of_mem hx

/-- An entry is the genesis, or a transition with a witness. -/
theorem genesis_or_transition {v : ValidConsignment} {x : ContractState.Origin × Operation}
    (hx : x ∈ v.told) : x.2 = .genesis v.consignment.genesis ∨
      ∃ t txid, x.2 = .transition t ∧ x.1.witness = some txid := by
  rcases List.mem_cons.1 hx with rfl | hx
  · exact .inl rfl
  · obtain ⟨w, -, hx⟩ := List.mem_flatMap.1 hx
    obtain ⟨e, -, rfl⟩ := List.mem_map.1 hx
    exact .inr ⟨_, _, rfl, rfl⟩

end ValidConsignment

namespace ContractState

variable {s : ContractState}

/-! ## The parts of an addition -/

/-- Adds the items of all global types. -/
def addGlobals (s : ContractState) (og : Origin) (state : OperationState) : ContractState :=
  (state.globals.sorted intLe).foldl (fun s x => addGlobal og s x.1 x.2) s

/-- Adds assignments one by one. -/
def addAssignments (s : ContractState) (og : Origin)
    (slots : List (Opout × StateKind × Assignment)) : ContractState :=
  slots.foldl (fun s x => addAssignment og x.2.1 s x.1 x.2.2) s

/-- An operation adds its global state, then its assignments. -/
theorem addOperation_eq (s : ContractState) (og : Origin) (state : OperationState) :
    s.addOperation og state = (s.addGlobals og state).addAssignments og (state.slots og.opId) := by
  unfold addAssignments OperationState.slots
  rw [List.foldl_flatMap]
  simp only [List.foldl_map]
  rfl

@[simp] theorem spent_addGlobals (s : ContractState) (og : Origin) (state : OperationState) :
    (s.addGlobals og state).spent = s.spent :=
  foldl_keeps ContractState.spent (by intros; rfl)

@[simp] theorem located_addGlobals (s : ContractState) (og : Origin) (state : OperationState) :
    (s.addGlobals og state).located = s.located :=
  foldl_keeps ContractState.located (by intros; rfl)

@[simp] theorem outputs_addGlobals (s : ContractState) (og : Origin) (state : OperationState) :
    (s.addGlobals og state).outputs = s.outputs :=
  foldl_keeps ContractState.outputs (by intros; rfl)

@[simp] theorem limits_addGlobals (s : ContractState) (og : Origin) (state : OperationState) :
    (s.addGlobals og state).limits = s.limits :=
  foldl_keeps ContractState.limits (by intros; rfl)

/-- An assignment changes neither global state with its limits nor what is spent. -/
theorem addAssignment_keeps (og : Origin) (kind : StateKind) (s : ContractState) (o : Opout)
    (a : Assignment) : (addAssignment og kind s o a).globals = s.globals ∧
      (addAssignment og kind s o a).limits = s.limits ∧
      (addAssignment og kind s o a).spent = s.spent := by
  unfold addAssignment
  split
  · split <;> exact ⟨rfl, rfl, rfl⟩
  · exact ⟨rfl, rfl, rfl⟩

section

variable (s : ContractState) (og : Origin) (slots : List (Opout × StateKind × Assignment))

@[simp] theorem globals_addAssignments : (s.addAssignments og slots).globals = s.globals :=
  foldl_keeps ContractState.globals (fun _ _ => (addAssignment_keeps ..).1)

@[simp] theorem limits_addAssignments : (s.addAssignments og slots).limits = s.limits :=
  foldl_keeps ContractState.limits (fun _ _ => (addAssignment_keeps ..).2.1)

@[simp] theorem spent_addAssignments : (s.addAssignments og slots).spent = s.spent :=
  foldl_keeps ContractState.spent (fun _ _ => (addAssignment_keeps ..).2.2)

end

/-! ## Performing -/

/-- Takes over the limits of a schema. -/
def limited (s : ContractState) (schema : Schema) : ContractState :=
  schema.globalTypes.entries.foldl (fun s x => s.addLimit x.1 x.2) s

@[simp] theorem spent_limited (s : ContractState) (schema : Schema) :
    (s.limited schema).spent = s.spent :=
  foldl_keeps ContractState.spent (by intros; rfl)

@[simp] theorem located_limited (s : ContractState) (schema : Schema) :
    (s.limited schema).located = s.located :=
  foldl_keeps ContractState.located (by intros; rfl)

@[simp] theorem outputs_limited (s : ContractState) (schema : Schema) :
    (s.limited schema).outputs = s.outputs :=
  foldl_keeps ContractState.outputs (by intros; rfl)

/-- **Performs** an entry of a chronicle: what it spends is spent, then what it sets is added. -/
def perform (s : ContractState) (x : Origin × Operation) : ContractState :=
  match x.2 with
  | .genesis g => s.addOperation x.1 g.state
  | .transition t => (s.spend t.inputs).addOperation x.1 t.state

/-- What is spent before an operation is added. -/
def paid (s : ContractState) (o : Operation) : ContractState :=
  match o with
  | .genesis _ => s
  | .transition t => s.spend t.inputs

/-- An entry is performed by adding the operation to what is left of the state. -/
theorem perform_eq (s : ContractState) (x : Origin × Operation) :
    s.perform x = (s.paid x.2).addOperation x.1 x.2.state := by
  obtain ⟨og, g | t⟩ := x <;> rfl

theorem mem_spent_paid {o : Operation} {opout : Opout} :
    opout ∈ (s.paid o).spent ↔ opout ∈ s.spent ∨ opout ∈ o.inputs := by
  cases o with
  | genesis g => simp [paid, Operation.inputs]
  | transition t => simp [paid, spend, Operation.inputs, mem_distinct]

/-- Nothing but the spent assignments changes before an operation is added. -/
theorem paid_keeps (s : ContractState) (o : Operation) : (s.paid o).globals = s.globals ∧
    (s.paid o).limits = s.limits ∧ (s.paid o).located = s.located ∧ (s.paid o).outputs = s.outputs := by
  cases o <;> exact ⟨rfl, rfl, rfl, rfl⟩

theorem mem_spent_perform {x : Origin × Operation} {o : Opout} :
    o ∈ (s.perform x).spent ↔ o ∈ s.spent ∨ o ∈ x.2.inputs := by
  rw [perform_eq, addOperation_eq, spent_addAssignments, spent_addGlobals, mem_spent_paid]

/-! ## Applying -/

/-- The state after what an accepted consignment tells. -/
def replay (s : ContractState) (v : ValidConsignment) : ContractState :=
  (v.told.foldl perform (s.limited v.consignment.schema)).prune

/-- Bundles that have ids are added by performing their transitions. -/
theorem foldlM_addBundle {ws : List WitnessBundle}
    (hws : ∀ w ∈ ws, ∃ bundleId, w.bundle.bundleId = .ok bundleId) (s : ContractState) :
    ws.foldlM addBundle s = .ok ((ws.flatMap fun w => w.bundle.transitions.map fun e =>
      (⟨e.1, some w.witness.witnessId, w.bundle.bundleId.toOption⟩, .transition e.2)).foldl
        perform s) := by
  induction ws generalizing s with
  | nil => rfl
  | cons w ws ih =>
    rw [List.forall_mem_cons] at hws
    obtain ⟨⟨bundleId, hid⟩, hws⟩ := hws
    rw [List.foldlM_cons, List.flatMap_cons, List.foldl_append, List.foldl_map, hid]
    refine bind_eq_ok.2 ⟨_, bind_eq_ok.2 ⟨bundleId, hid, rfl⟩, ?_⟩
    exact ih hws _

/-- To apply an accepted consignment of the contract is to perform what it tells. -/
theorem apply_eq_replay {v : ValidConsignment} (hv : v.Accepted) (hid : v.contractId = s.contractId) :
    s.apply v = .ok (s.replay v) := by
  rw [ContractState.apply, if_neg (not_not_intro hid)]
  refine bind_eq_ok.2 ⟨_, foldlM_addBundle (fun w hw => hv.exists_bundleId hw) _, ?_⟩
  rfl

@[simp] theorem contractId_perform (s : ContractState) (x : Origin × Operation) :
    (s.perform x).contractId = s.contractId := by
  rw [perform_eq, (adds_addOperation ..).contractId]
  cases x.2 <;> rfl

/-- A state stays one of the same contract. -/
@[simp] theorem contractId_replay (s : ContractState) (v : ValidConsignment) :
    (s.replay v).contractId = s.contractId := by
  show (v.told.foldl perform _).contractId = _
  rw [foldl_keeps ContractState.contractId contractId_perform]
  exact foldl_keeps ContractState.contractId (by intros; rfl)

/-- Accepted consignments of the contract are applied by performing what each of them tells. -/
theorem foldlM_apply_eq {vs : List ValidConsignment}
    (hvs : ∀ v ∈ vs, v.Accepted ∧ v.contractId = s.contractId) :
    vs.foldlM apply s = .ok (vs.foldl replay s) := by
  induction vs generalizing s with
  | nil => rfl
  | cons v vs ih =>
    rw [List.forall_mem_cons] at hvs
    rw [List.foldlM_cons, apply_eq_replay hvs.1.1 hvs.1.2]
    exact ih fun w hw => ⟨(hvs.2 w hw).1, (hvs.2 w hw).2.trans (contractId_replay s v).symm⟩

end ContractState

end StrictContract
