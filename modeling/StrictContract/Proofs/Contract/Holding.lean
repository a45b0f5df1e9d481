import StrictContract.Proofs.Contract.Locating

/-! # Holding — the seals of what is held

Every output that a state lists **stems** from an accepted consignment, as it was disclosed last. The
genesis assigns to seals that name their transactions, since no genesis with another seal conforms to a
schema; these are kept as they are. A transition assigns to any seals, and those without a transaction
are bound to the witness under which the transition is carried. So the seal of an output that is listed
is always defined over a transaction output. -/

namespace StrictContract

namespace Seal

variable {s : Seal} {witness : Txid}

theorem withWitness_of_none (h : s.transaction = none) :
    s.withWitness witness = { s with transaction := some witness } := by
  rw [withWitness, h]

theorem withWitness_of_ne_none (h : s.transaction ≠ none) : s.withWitness witness = s := by
  obtain ⟨transaction, htransaction⟩ := Option.ne_none_iff_exists'.1 h
  rw [withWitness, htransaction]

/-- A seal has an outpoint when it names its transaction. -/
theorem outpoint_eq_ok {p : Outpoint} : s.outpoint = .ok p ↔ s.outpoint? = some p := by
  unfold outpoint outpoint?
  cases s.transaction with
  | none => exact iff_of_false nofun nofun
  | some transaction => simp

end Seal

namespace ValidConsignment

open ContractState

variable {v : ValidConsignment} {out : Output}

/-- An output stems **from the genesis** of a consignment: it is what the genesis assigns at its place,
with the seal as it is. -/
structure FromGenesis (v : ValidConsignment) (out : Output) : Prop where
  opId : out.opout.op = v.contractId.cast .operation
  witness : out.witness = none
  slot : v.consignment.genesis.state.slot? out.opout =
    some (out.kind, .revealed out.definition out.state)

/-- An output stems **from a transition** that is carried in a bundle: it is what the transition assigns
at its place, to a seal that is bound to the witness of the bundle if it names no transaction, and kept
as it is otherwise. -/
structure FromTransition (w : WitnessBundle) (t : Transition) (definition : Seal) (out : Output) :
    Prop where
  opId : t.opId = .ok out.opout.op
  carried : (out.opout.op, t) ∈ w.bundle.known.entries
  witness : out.witness = some w.witness.witnessId
  slot : t.state.slot? out.opout = some (out.kind, .revealed definition out.state)
  bound : definition.transaction = none →
    out.definition = { definition with transaction := some w.witness.witnessId }
  kept : definition.transaction ≠ none → out.definition = definition

/-- An output **stems** from a consignment. -/
def Stems (v : ValidConsignment) (out : Output) : Prop :=
  v.FromGenesis out ∨
    ∃ w ∈ v.consignment.bundles, ∃ t definition, FromTransition w t definition out

/-- What an accepted consignment discloses stems from it. -/
theorem Accepted.stems (hv : v.Accepted) {x : Origin × Operation} (hx : x ∈ v.told) {o : Opout}
    (hout : disclosed? x o = some out) : v.Stems out := by
  obtain ⟨kind, a, hmem, hout⟩ := disclosed?_eq_some.1 hout
  obtain ⟨hop, hslot⟩ := OperationState.mem_slots.1 hmem
  cases a with
  | confidential secret state => cases hout
  | revealed definition state =>
    cases hout
    rcases List.mem_cons.1 hx with rfl | hx
    · exact .inl ⟨hop, rfl, hslot⟩
    · obtain ⟨w, hw, hx⟩ := List.mem_flatMap.1 hx
      obtain ⟨⟨id, t⟩, he, rfl⟩ := List.mem_map.1 hx
      obtain rfl : o.op = id := hop
      have hknown : (o.op, t) ∈ w.bundle.known.entries := Table.mem_sorted.1 he
      exact .inr ⟨w, hw, t, definition, (hv.consistent.links w hw _ hknown).carried, hknown, rfl, hslot,
        Seal.withWitness_of_none, Seal.withWitness_of_ne_none⟩

end ValidConsignment

namespace ContractState

open ValidConsignment

variable {s : ContractState}

/-- What is listed of a kind are the outputs of this kind. -/
theorem mem_select_all {kind : StateKind} {out : Output} : out ∈ s.select kind none none ↔
    (∃ o, s.outputs.get? o = some out) ∧ out.kind = kind := by
  simp [select_eq, Table.mem_sorted, Table.mem_entries]

/-- **Every output that is held has an outpoint.** After accepted consignments of one contract, whatever
is listed of any kind was disclosed last at its place and stems from one of the consignments: it keeps
the seal of the genesis, or the seal of a transition, which is bound to a witness that carries the
transition if it names no transaction. The seal names a transaction then, so it has an outpoint. -/
theorem held_has_outpoint {id : ContractId} {vs : List ValidConsignment}
    (hvs : ∀ v ∈ vs, v.Accepted ∧ v.contractId = id) :
    ∃ s, vs.foldlM apply (empty id) = .ok s ∧ ∀ kind, ∀ out ∈ s.select kind none none,
      out.kind = kind ∧ (chronicle vs).last? out.opout = some out ∧ (∃ v ∈ vs, v.Stems out) ∧
        ∃ transaction, out.definition.transaction = some transaction ∧
          out.definition.outpoint = .ok ⟨transaction, out.definition.vout⟩ := by
  obtain ⟨s, hs, -, hpruned, hlocates⟩ := exists_run hvs
  refine ⟨s, hs, fun kind out hout => ?_⟩
  obtain ⟨⟨o, ho⟩, hkind⟩ := mem_select_all.1 hout
  obtain ⟨rfl, hlast⟩ := hlocates.last?_of_get? hpruned ho
  -- what was disclosed last was disclosed by one of the consignments
  obtain ⟨x, hx, hdisclosed⟩ := Chronicle.exists_of_last? hlast
  obtain ⟨v, hv, hx⟩ := List.mem_flatMap.1 hx
  obtain ⟨p, hp, -⟩ := (hvs v hv).1.exists_outpoint hx hdisclosed
  obtain ⟨transaction, htransaction, rfl⟩ := Option.map_eq_some_iff.1 hp
  exact ⟨hkind, hlast, ⟨v, hv, (hvs v hv).1.stems hx hdisclosed⟩, transaction,
    htransaction, Seal.outpoint_eq_ok.2 hp⟩

/-- A post under a witness: the right is held, at an output of the witness. -/
theorem held_has_outpoint_posted : ∃ (v : ValidConsignment) (s : ContractState) (kind : StateKind)
    (out : Output), v.Accepted ∧ [v].foldlM apply (empty v.contractId) = .ok s ∧
      out ∈ s.select kind none none ∧
        out.definition.outpoint = .ok ⟨Consignment.uniformTxid 17, out.definition.vout⟩ := by
  obtain ⟨schemaId, genesis, -, a, -, hindex, hboards⟩ := Consignment.exists_boards
  obtain ⟨v, hv, hboard, hid⟩ := hboards [(a, Consignment.uniformTxid 17)] (Nat.le_of_ble_eq_true rfl)
  obtain ⟨s, hs, hlocates, -, hspent⟩ := exists_state_board hv hboard hid
  obtain ⟨t, ht, hheld⟩ := held_has_outpoint (List.forall_mem_singleton.2 ⟨hv, rfl⟩)
  obtain rfl : s = t := Except.ok.inj (hs.symm.trans ht)
  have hunspent : a.place ∉ s.spent := by
    rw [hspent]
    simp [Consignment.Post.place, hindex]
  obtain ⟨out, hout, hp⟩ := exists_disclosed?_post a (Consignment.uniformTxid 17)
  have hlast : (Consignment.boardTold schemaId [(a, Consignment.uniformTxid 17)]).last? a.place =
      some out :=
    (Chronicle.last?_append_singleton [_] (a.entry _) a.place).trans (congrArg (Option.or · _) hout)
  have hlisted : out ∈ s.select out.kind none none :=
    mem_select_all.2 ⟨⟨a.place, (hlocates.output _ hunspent).trans hlast⟩, rfl⟩
  obtain ⟨-, -, -, transaction, htransaction, houtpoint⟩ := hheld _ out hlisted
  rw [Seal.outpoint?, htransaction] at hp
  obtain rfl : transaction = Consignment.uniformTxid 17 :=
    congrArg Outpoint.transaction (Option.some.inj hp)
  exact ⟨v, s, _, out, hv, hs, hlisted, houtpoint⟩

end ContractState

end StrictContract
