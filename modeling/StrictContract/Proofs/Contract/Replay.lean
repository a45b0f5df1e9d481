import StrictContract.Contract.State
import StrictContract.Proofs.Contract.Accepted

/-! # Replaying — what a state holds after a history of operations

A **history** is a list of operations with their ids. It **reveals** and **conceals** assignments and
**spends** references to them. A state that has **replayed** a history holds just that: its spent
references are those that the history spends, its concealed seals those that the history conceals, and
its outputs come from revealed assignments, none of which is missing unless it is spent. One addition
of an operation, one bundle and one consignment keep this. -/

namespace StrictContract

/-! ## Histories -/

namespace OperationState

/-- The assignment at a place, with the kind of its state. -/
def slot? (s : OperationState) (o : Opout) : Option (StateKind × Assignment) := do
  let a ← s.assignments.get? o.type
  if o.index < 0 then none else return (a.kind, ← a.items[o.index.toNat]?)

/-- All assignments with their places, under the id of the operation. -/
def slots (s : OperationState) (id : OpId) : List (Opout × StateKind × Assignment) :=
  (s.assignments.sorted intLe).flatMap fun (type, a) =>
    a.positioned.map fun (i, x) => (⟨id, type, i⟩, a.kind, x)

/-- What is at a place, in terms of the table of assignments. -/
theorem slot?_eq_some {s : OperationState} {o : Opout} {kind : StateKind} {x : Assignment} :
    s.slot? o = some (kind, x) ↔ ∃ a, s.assignments.get? o.type = some a ∧ a.kind = kind ∧
      ∃ i : Nat, o.index = i ∧ a.items[i]? = some x := by
  constructor
  · intro h
    obtain ⟨a, ha, h⟩ := Option.bind_eq_some_iff.1 h
    split at h
    · cases h
    · obtain ⟨y, hy, heq⟩ := Option.bind_eq_some_iff.1 h
      cases heq
      exact ⟨a, ha, rfl, o.index.toNat, by omega, hy⟩
  · rintro ⟨a, ha, rfl, i, hi, hx⟩
    refine Option.bind_eq_some_iff.2 ⟨a, ha, ?_⟩
    rw [if_neg (by omega)]
    exact Option.bind_eq_some_iff.2 ⟨x, by rw [hi]; exact hx, rfl⟩

/-- The places of all assignments are those with an assignment. -/
theorem mem_slots {s : OperationState} {id : OpId} {o : Opout} {kind : StateKind} {x : Assignment} :
    (o, kind, x) ∈ s.slots id ↔ o.op = id ∧ s.slot? o = some (kind, x) := by
  rw [slot?_eq_some, slots, List.mem_flatMap]
  constructor
  · rintro ⟨⟨type, a⟩, ha, hx⟩
    obtain ⟨⟨i, y⟩, hy, heq⟩ := List.mem_map.1 hx
    cases heq
    obtain ⟨⟨y, j⟩, hy, heq⟩ := List.mem_map.1 hy
    cases heq
    exact ⟨rfl, a, Table.mem_entries.1 (Table.mem_sorted.1 ha), rfl, i, rfl,
      List.mem_zipIdx_iff_getElem?.1 hy⟩
  · rintro ⟨rfl, a, ha, hkind, i, hi, hx⟩
    refine ⟨(o.type, a), Table.mem_sorted.2 (Table.mem_entries.2 ha), List.mem_map.2 ⟨(i, x), ?_, ?_⟩⟩
    · exact List.mem_map.2 ⟨(x, i), List.mem_zipIdx_iff_getElem?.2 hx, rfl⟩
    · show (Opout.mk o.op o.type i, a.kind, x) = (o, kind, x)
      rw [← hi, hkind]

end OperationState

/-- A **history**: operations with their ids. -/
abbrev History : Type := List (OpId × Operation)

namespace History

variable (h : History)

/-- A history **reveals** a state at a place when an operation of it assigns the state there to a
revealed seal. -/
def Reveals (kind : StateKind) (o : Opout) (state : Value) : Prop :=
  ∃ x ∈ h, x.1 = o.op ∧ ∃ definition, x.2.state.slot? o = some (kind, .revealed definition state)

/-- A history **conceals** a place under a seal when an operation of it assigns something there to
the seal, of which only the commitment is known. -/
def Conceals (secret : SecretSeal) (o : Opout) : Prop :=
  ∃ x ∈ h, x.1 = o.op ∧ ∃ kind state, x.2.state.slot? o = some (kind, .confidential secret state)

/-- A history **spends** a place when an operation of it has the place among its inputs. -/
def Spends (o : Opout) : Prop := ∃ x ∈ h, o ∈ x.2.inputs

end History

namespace ContractState

variable {s t u : ContractState}

/-! ## Adding assignments -/

/-- What an addition of assignments can do to a state. -/
structure Adds (slots : List (Opout × StateKind × Assignment)) (s t : ContractState) : Prop where
  contractId : t.contractId = s.contractId
  spent : t.spent = s.spent
  concealed : ∀ secret o, (secret, o) ∈ t.concealed ↔
    (secret, o) ∈ s.concealed ∨ ∃ kind state, (o, kind, .confidential secret state) ∈ slots
  /-- An output is an old one or comes from a revealed assignment. -/
  output : ∀ o out, t.outputs.get? o = some out → s.outputs.get? o = some out ∨
    out.opout = o ∧ ∃ definition, (o, out.kind, .revealed definition out.state) ∈ slots
  kept : ∀ o, (∃ out, s.outputs.get? o = some out) → ∃ out, t.outputs.get? o = some out
  /-- A revealed assignment that is not spent is an output. -/
  revealed : ∀ o kind definition state, (o, kind, .revealed definition state) ∈ slots →
    o ∉ s.spent → ∃ out, t.outputs.get? o = some out

namespace Adds

variable {slots slots' : List (Opout × StateKind × Assignment)}

/-- A step that touches neither outputs nor seals adds nothing. -/
theorem of_eq (hid : t.contractId = s.contractId) (hspent : t.spent = s.spent)
    (hconcealed : t.concealed = s.concealed) (houtputs : t.outputs = s.outputs) : Adds [] s t where
  contractId := hid
  spent := hspent
  concealed := by simp [hconcealed]
  output := fun o out hout => .inl (houtputs ▸ hout)
  kept := fun o hout => houtputs ▸ hout
  revealed := nofun

/-- Additions one after another add everything. -/
theorem trans (h : Adds slots s t) (h' : Adds slots' t u) : Adds (slots ++ slots') s u where
  contractId := h'.contractId.trans h.contractId
  spent := h'.spent.trans h.spent
  concealed := by
    intro secret o
    simp only [h'.concealed, h.concealed, List.mem_append, exists_or, or_assoc]
  output := by
    intro o out hout
    rcases h'.output o out hout with hout | ⟨ho, definition, hmem⟩
    · refine (h.output o out hout).imp_right fun ⟨ho, definition, hmem⟩ => ?_
      exact ⟨ho, definition, List.mem_append_left _ hmem⟩
    · exact .inr ⟨ho, definition, List.mem_append_right _ hmem⟩
  kept := fun o hout => h'.kept o (h.kept o hout)
  revealed := by
    intro o kind definition state hmem hspent
    rcases List.mem_append.1 hmem with hmem | hmem
    · exact h'.kept o (h.revealed o kind definition state hmem hspent)
    · exact h'.revealed o kind definition state hmem (h.spent ▸ hspent)

/-- A loop of additions adds everything. -/
theorem foldl {α : Type} {f : ContractState → α → ContractState}
    {g : α → List (Opout × StateKind × Assignment)} (hf : ∀ s a, Adds (g a) s (f s a))
    (xs : List α) (s : ContractState) : Adds (xs.flatMap g) s (xs.foldl f s) := by
  induction xs generalizing s with
  | nil => exact of_eq rfl rfl rfl rfl
  | cons a xs ih =>
    rw [List.flatMap_cons, List.foldl_cons]
    exact (hf s a).trans (ih (f s a))

end Adds

/-- A concealed assignment adds its seal, once. -/
theorem adds_confidential (og : Origin) (kind : StateKind) (s : ContractState) (o : Opout)
    (secret : SecretSeal) (state : Value) :
    Adds [(o, kind, .confidential secret state)] s
      (addAssignment og kind s o (.confidential secret state)) := by
  have hslot : ∀ secret' o', (∃ kind' state', (o', kind', Assignment.confidential secret' state') ∈
      [(o, kind, .confidential secret state)]) ↔ (secret', o') = (secret, o) := by
    simp [and_comm]
  unfold addAssignment
  dsimp only
  split
  · rename_i hold
    refine ⟨rfl, rfl, fun secret' o' => ?_, fun _ _ h => .inl h, fun _ h => h, by simp⟩
    rw [hslot]
    refine ⟨.inl, fun h => h.elim id fun heq => ?_⟩
    rw [heq]
    exact List.contains_iff_mem.1 hold
  · refine ⟨rfl, rfl, fun secret' o' => ?_, fun _ _ h => .inl h, fun _ h => h, by simp⟩
    rw [hslot, List.mem_append, List.mem_singleton]

/-- A revealed assignment adds an output, unless its place is spent already. -/
theorem adds_revealed (og : Origin) (kind : StateKind) (s : ContractState) (o : Opout)
    (definition : Seal) (state : Value) :
    Adds [(o, kind, .revealed definition state)] s
      (addAssignment og kind s o (.revealed definition state)) := by
  unfold addAssignment
  dsimp only
  by_cases hspent : s.spent.contains o = true
  · rw [if_pos hspent]
    refine ⟨rfl, rfl, by simp, fun _ _ h => .inl h, fun _ h => h, ?_⟩
    intro o' kind' definition' state' hmem hnot
    cases List.mem_singleton.1 hmem
    exact absurd (List.contains_iff_mem.1 hspent) hnot
  · rw [if_neg hspent]
    refine ⟨rfl, rfl, by simp, fun o' out hout => ?_, fun o' hout => ?_, ?_⟩
    · rw [Table.get?_put] at hout
      split at hout
      · rename_i ho
        cases hout
        exact .inr ⟨ho.symm, definition, by rw [ho]; exact List.mem_singleton.2 rfl⟩
      · exact .inl hout
    · -- an output at the place is replaced, so there still is one
      rw [Table.get?_put]
      split
      · exact ⟨_, rfl⟩
      · exact hout
    · intro o' kind' definition' state' hmem _
      cases List.mem_singleton.1 hmem
      exact ⟨_, by rw [Table.get?_put, if_pos rfl]⟩

/-- What one assignment adds. -/
theorem adds_addAssignment (og : Origin) (kind : StateKind) (s : ContractState) (o : Opout)
    (a : Assignment) : Adds [(o, kind, a)] s (addAssignment og kind s o a) := by
  cases a with
  | confidential secret state => exact adds_confidential og kind s o secret state
  | revealed definition state => exact adds_revealed og kind s o definition state

/-- What an operation adds. -/
theorem adds_addOperation (s : ContractState) (og : Origin) (state : OperationState) :
    Adds (state.slots og.opId) s (s.addOperation og state) := by
  unfold addOperation
  dsimp only
  -- global state is no assignment, so the first loop adds nothing
  have hglobals := Adds.foldl (g := fun _ => [])
    (f := fun s (x : Int × List Value) => addGlobal og s x.1 x.2)
    (fun s x => .of_eq rfl rfl rfl rfl) (state.globals.sorted intLe) s
  rw [List.flatMap_eq_nil_iff.2 fun _ _ => rfl] at hglobals
  refine hglobals.trans ?_
  refine Adds.foldl (fun s x => ?_) _ _
  have hitems := Adds.foldl (g := fun y : Nat × Assignment => [(⟨og.opId, x.1, y.1⟩, x.2.kind, y.2)])
    (f := fun s y => addAssignment og x.2.kind s ⟨og.opId, x.1, y.1⟩ y.2)
    (fun s y => adds_addAssignment _ _ _ _ _) x.2.positioned s
  rwa [← List.map_eq_flatMap] at hitems

/-! ## Replaying -/

/-- A state of a contract that has **replayed** a history. -/
structure Replayed (id : ContractId) (h : History) (s : ContractState) : Prop where
  contractId : s.contractId = id
  spent : ∀ o, o ∈ s.spent ↔ h.Spends o
  concealed : ∀ secret o, (secret, o) ∈ s.concealed ↔ h.Conceals secret o
  /-- An output is a revealed assignment of the history. -/
  output : ∀ o out, s.outputs.get? o = some out → out.opout = o ∧ h.Reveals out.kind o out.state
  /-- A revealed assignment that is not spent is an output. -/
  unspent : ∀ kind o state, h.Reveals kind o state → ¬ h.Spends o → ∃ out, s.outputs.get? o = some out

/-- A state of which nothing is known has replayed the empty history. -/
theorem replayed_empty (id : ContractId) : Replayed id [] (empty id) where
  contractId := rfl
  spent := by simp [empty, History.Spends]
  concealed := by simp [empty, History.Conceals]
  output := nofun
  unspent := by simp [History.Reveals]

namespace Replayed

variable {id : ContractId} {h : History}

/-- A state that has replayed a history has replayed it with one more operation after the inputs of
the operation are spent and its assignments are added. -/
theorem step (hs : Replayed id h s) {x : OpId × Operation} (hid : t.contractId = s.contractId)
    (hspent : ∀ o, o ∈ t.spent ↔ o ∈ s.spent ∨ o ∈ x.2.inputs) (hconcealed : t.concealed = s.concealed)
    (houtputs : t.outputs = s.outputs) (hadds : Adds (x.2.state.slots x.1) t u) :
    Replayed id (h ++ [x]) u where
  contractId := hadds.contractId.trans (hid.trans hs.contractId)
  spent := by
    intro o
    rw [hadds.spent, hspent, hs.spent]
    simp [History.Spends, or_and_right, exists_or]
  concealed := by
    intro secret o
    rw [hadds.concealed, hconcealed, hs.concealed]
    simp [History.Conceals, OperationState.mem_slots, or_and_right, exists_or, eq_comm]
  output := by
    intro o out hout
    rcases hadds.output o out hout with hout | ⟨ho, definition, hmem⟩
    · rw [houtputs] at hout
      obtain ⟨ho, y, hy, hreveals⟩ := hs.output o out hout
      exact ⟨ho, y, List.mem_append_left _ hy, hreveals⟩
    · obtain ⟨hop, hslot⟩ := OperationState.mem_slots.1 hmem
      exact ⟨ho, x, by simp, hop.symm, definition, hslot⟩
  unspent := by
    rintro kind o state ⟨y, hy, hop, definition, hslot⟩ hnot
    -- what is not spent in the end was not spent before, and is no input of the operation
    have hnots : ¬ h.Spends o := fun ⟨z, hz, ho⟩ => hnot ⟨z, List.mem_append_left _ hz, ho⟩
    have hnotx : o ∉ x.2.inputs := fun ho => hnot ⟨x, by simp, ho⟩
    rcases List.mem_append.1 hy with hy | hy
    · refine hadds.kept o (houtputs ▸ ?_)
      exact hs.unspent kind o state ⟨y, hy, hop, definition, hslot⟩ hnots
    · obtain rfl := List.mem_singleton.1 hy
      refine hadds.revealed o kind definition state (OperationState.mem_slots.2 ⟨hop.symm, hslot⟩) ?_
      rw [hspent, hs.spent]
      exact not_or.2 ⟨hnots, hnotx⟩

/-- A step that touches nothing that was replayed keeps it. -/
theorem of_adds_nil (hs : Replayed id h s) (hadds : Adds [] s t) : Replayed id h t where
  contractId := hadds.contractId.trans hs.contractId
  spent := by
    intro o
    rw [hadds.spent, hs.spent]
  concealed := by
    intro secret o
    rw [hadds.concealed, hs.concealed]
    simp
  output := by
    intro o out hout
    rcases hadds.output o out hout with hout | ⟨-, definition, hmem⟩
    · exact hs.output o out hout
    · cases hmem
  unspent := fun kind o state hreveals hnot => hadds.kept o (hs.unspent kind o state hreveals hnot)

/-- Transitions are replayed one by one. -/
theorem transitions (witness : Option Txid) (bundleId : Option BundleId)
    (ts : List (OpId × Transition)) (hs : Replayed id h s) :
    Replayed id (h ++ ts.map fun e => (e.1, .transition e.2)) (ts.foldl (fun s (opId, t) =>
      (s.spend t.inputs).addOperation ⟨opId, witness, bundleId⟩ t.state) s) := by
  induction ts generalizing h s with
  | nil => rwa [List.map_nil, List.append_nil]
  | cons e ts ih =>
    rw [List.map_cons, List.foldl_cons, List.append_cons]
    -- the inputs are spent first, so that an operation never brings back what it spends
    refine ih (hs.step (t := s.spend e.2.inputs) (x := (e.1, .transition e.2)) rfl (fun o => ?_) rfl rfl
      (adds_addOperation _ ⟨e.1, witness, bundleId⟩ e.2.state))
    rw [spend, mem_distinct, List.mem_append]
    rfl

/-- Bundles that have ids are replayed one by one. -/
theorem bundles {ws : List WitnessBundle} (hws : ∀ w ∈ ws, ∃ bundleId, w.bundle.bundleId = .ok bundleId)
    (hs : Replayed id h s) : ∃ t, ws.foldlM addBundle s = .ok t ∧
      Replayed id (h ++ ws.flatMap fun w =>
        w.bundle.transitions.map fun e => (e.1, .transition e.2)) t := by
  induction ws generalizing h s with
  | nil => exact ⟨s, rfl, by rwa [List.flatMap_nil, List.append_nil]⟩
  | cons w ws ih =>
    rw [List.forall_mem_cons] at hws
    obtain ⟨⟨bundleId, hid⟩, hws⟩ := hws
    obtain ⟨t, ht, hreplayed⟩ := ih hws
      (hs.transitions (some w.witness.witnessId) (some bundleId) w.bundle.transitions)
    rw [List.append_assoc] at hreplayed
    refine ⟨t, ?_, hreplayed⟩
    rw [List.foldlM_cons]
    exact bind_eq_ok.2 ⟨_, bind_eq_ok.2 ⟨bundleId, hid, rfl⟩, ht⟩

/-- Dropping what is spent keeps what was replayed. -/
theorem prune (hs : Replayed id h s) : Replayed id h s.prune where
  contractId := hs.contractId
  spent := hs.spent
  concealed := hs.concealed
  output := by
    intro o out hout
    rw [ContractState.prune, Table.get?_foldl_erase] at hout
    split at hout
    · cases hout
    · exact hs.output o out hout
  unspent := by
    intro kind o state hreveals hnot
    rw [ContractState.prune, Table.get?_foldl_erase, if_neg (mt (hs.spent o).1 hnot)]
    exact hs.unspent kind o state hreveals hnot

/-- An accepted consignment of the contract can be applied, and its operations are replayed. No output
is spent then. -/
theorem apply (hs : Replayed id h s) {v : ValidConsignment} (hv : v.Accepted)
    (hid : v.contractId = id) : ∃ t, s.apply v = .ok t ∧
      Replayed id (h ++ v.consignment.identified) t ∧ ∀ o ∈ t.spent, t.outputs.get? o = none := by
  have hlimits := Adds.foldl (g := fun _ => [])
    (f := fun s (x : Int × GlobalDetails) => addLimit s x.1 x.2)
    (fun s x => .of_eq rfl rfl rfl rfl) v.consignment.schema.globalTypes.entries s
  rw [List.flatMap_eq_nil_iff.2 fun _ _ => rfl] at hlimits
  -- the genesis is an operation without inputs, under the id of the contract
  have hopened := (hs.of_adds_nil hlimits).step rfl (by simp [Operation.inputs]) rfl rfl
    (adds_addOperation _ ⟨v.contractId.cast .operation, none, none⟩ v.consignment.genesis.state)
    (x := (v.contractId.cast .operation, .genesis v.consignment.genesis))
  obtain ⟨t, ht, hreplayed⟩ := hopened.bundles fun w hw => hv.exists_bundleId hw
  rw [List.append_assoc, List.singleton_append, ← hv.identified_eq] at hreplayed
  refine ⟨t.prune, ?_, hreplayed.prune, fun o ho => ?_⟩
  · rw [ContractState.apply, if_neg (not_not_intro (hid.trans hs.contractId.symm))]
    exact bind_eq_ok.2 ⟨t, ht, rfl⟩
  · rw [ContractState.prune, Table.get?_foldl_erase]
    exact if_pos ho

end Replayed

end ContractState

end StrictContract
