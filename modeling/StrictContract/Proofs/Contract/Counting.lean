import Mathlib.Data.List.Nodup
import StrictContract.Proofs.Contract.Views

/-! # Counting — by how much the number of outputs changes

A state **holds** the places at which it has an output. An application **gains** the places that the
consignment reveals and nothing spends, and it **loses** the held places that the consignment spends.
The number that is given is the difference of the two. So it is how many places are gained exactly if
no place is lost, and it is negative when more places are lost than gained. -/

namespace StrictContract

namespace History

variable {h h' : History}

/-- A history **reveals at** a place when it reveals some state there. -/
def RevealsAt (h : History) (o : Opout) : Prop := ∃ kind state, h.Reveals kind o state

theorem revealsAt_append {o : Opout} :
    (h ++ h').RevealsAt o ↔ h.RevealsAt o ∨ h'.RevealsAt o := by
  simp only [RevealsAt, Reveals, List.mem_append, or_and_right, exists_or]

theorem spends_append {o : Opout} : (h ++ h').Spends o ↔ h.Spends o ∨ h'.Spends o := by
  simp only [Spends, List.mem_append, or_and_right, exists_or]

end History

namespace ContractState

open ValidConsignment

variable {s t : ContractState} {id : ContractId} {h : History} {o : Opout}

/-! ## Places -/

/-- A state **holds** a place when it has an output there. -/
def Holds (s : ContractState) (o : Opout) : Prop := s.outputs.contains o = true

/-- The places that are **gained** from a state to another: those that only the second one holds. -/
def gained (s t : ContractState) : List Opout := t.outputs.keys.filter fun o => !s.outputs.contains o

theorem holds_iff_mem_keys : s.Holds o ↔ o ∈ s.outputs.keys := isSome_lookup

theorem mem_gained : o ∈ gained s t ↔ t.Holds o ∧ ¬ s.Holds o := by
  rw [gained, List.mem_filter, ← holds_iff_mem_keys, Holds, Holds, Bool.not_eq_true', Bool.not_eq_true]

/-- The number of outputs grows by what is gained less what is gained the other way. -/
theorem size_sub_size (s t : ContractState) :
    (t.size : Int) - s.size = (gained s t).length - (gained t s).length := by
  -- both states hold the same places of those that both of them hold
  have hboth : (t.outputs.keys.filter s.outputs.contains).length =
      (s.outputs.keys.filter t.outputs.contains).length := by
    refine List.Perm.length_eq ((List.perm_ext_iff_of_nodup (t.outputs.nodup.filter _)
      (s.outputs.nodup.filter _)).2 fun o => ?_)
    simp only [List.mem_filter]
    exact (and_congr holds_iff_mem_keys.symm Iff.rfl).trans
      ((and_comm).trans (and_congr holds_iff_mem_keys Iff.rfl))
  have hsplit : ∀ x y : ContractState, x.size =
      (x.outputs.keys.filter y.outputs.contains).length + (gained y x).length := by
    intro x y
    have hlength : x.size = x.outputs.keys.length := (List.length_map _).symm
    rw [hlength, gained]
    exact List.length_eq_length_filter_add _
  have hs := hsplit s t
  have ht := hsplit t s
  omega

/-- A pruned state holds what the history that it has replayed reveals and does not spend. -/
theorem Replayed.holds_iff (hs : Replayed id h s) (hpruned : s.Pruned) :
    s.Holds o ↔ h.RevealsAt o ∧ ¬ h.Spends o := by
  rw [Holds, Table.contains, Option.isSome_iff_exists]
  constructor
  · rintro ⟨out, hout⟩
    exact ⟨⟨_, _, (hs.output o out hout).2⟩, mt (hs.spent o).2 (hpruned.not_mem_spent hout)⟩
  · rintro ⟨⟨kind, state, hreveals⟩, hspent⟩
    exact hs.unspent kind o state hreveals hspent

/-! ## One application -/

/-- The number that an application gives is that of the places that are gained, less that of the places
that are lost. -/
theorem applyCounting_eq_ok {v : ValidConsignment} (h : s.apply v = .ok t) :
    s.applyCounting v = .ok ((gained s t).length - (gained t s).length, t) := by
  rw [applyCounting, h, ← size_sub_size]
  rfl

/-- After accepted consignments of one contract, one more can be applied. -/
theorem exists_apply {vs : List ValidConsignment} {v : ValidConsignment}
    (hvs : ∀ w ∈ vs ++ [v], w.Accepted ∧ w.contractId = id) :
    ∃ s t, vs.foldlM apply (empty id) = .ok s ∧ s.apply v = .ok t ∧
      (∀ o, s.Holds o ↔ (history vs).RevealsAt o ∧ ¬ (history vs).Spends o) ∧
      ∀ o, t.Holds o ↔ (history (vs ++ [v])).RevealsAt o ∧
        ¬ (history (vs ++ [v])).Spends o := by
  obtain ⟨hvs, hv⟩ := List.forall_mem_append.1 hvs
  obtain ⟨hv, hid⟩ := List.forall_mem_singleton.1 hv
  obtain ⟨s, hs, hreplayed, hpruned⟩ := (replayed_empty id).foldlM hvs nofun
  obtain ⟨t, ht, hreplayed', hpruned'⟩ := hreplayed.apply hv hid
  refine ⟨s, t, hs, ht, fun o => hreplayed.holds_iff hpruned, fun o => ?_⟩
  rw [history, List.flatMap_append, List.flatMap_singleton]
  exact hreplayed'.holds_iff hpruned'

/-- **What the number of an application counts.** After accepted consignments of one contract, another
one is applied. The number that is given is that of the gained places less that of the lost places. A
place is gained if it was not held, the consignment reveals it, and nothing that was ever applied spends
it. A place is lost if it was held and the consignment spends it. So the number is that of the gained
places exactly if the consignment spends no place that was held. -/
theorem applyCounting_eq_gained_sub_lost {vs : List ValidConsignment} {v : ValidConsignment}
    (hvs : ∀ w ∈ vs ++ [v], w.Accepted ∧ w.contractId = id) :
    ∃ s t n, vs.foldlM apply (empty id) = .ok s ∧ s.applyCounting v = .ok (n, t) ∧
      n = (gained s t).length - (gained t s).length ∧
      (∀ o, o ∈ gained s t ↔ ¬ s.Holds o ∧ (history [v]).RevealsAt o ∧
        ¬ (history (vs ++ [v])).Spends o) ∧
      (∀ o, o ∈ gained t s ↔ s.Holds o ∧ (history [v]).Spends o) ∧
      (n = (gained s t).length ↔ ∀ o, s.Holds o → ¬ (history [v]).Spends o) := by
  obtain ⟨s, t, hs, ht, hholds, hholds'⟩ := exists_apply hvs
  have hhistory : history (vs ++ [v]) = history vs ++ history [v] := List.flatMap_append
  have hgained : ∀ o, o ∈ gained s t ↔
      ¬ s.Holds o ∧ (history [v]).RevealsAt o ∧ ¬ (history (vs ++ [v])).Spends o := by
    intro o
    rw [mem_gained, hholds', hhistory, History.revealsAt_append]
    constructor
    · rintro ⟨⟨hreveals, hspends⟩, hnot⟩
      refine ⟨hnot, hreveals.resolve_left fun hold => hnot ((hholds o).2 ⟨hold, fun h => ?_⟩), hspends⟩
      exact hspends (History.spends_append.2 (.inl h))
    · rintro ⟨hnot, hreveals, hspends⟩
      exact ⟨⟨.inr hreveals, hspends⟩, hnot⟩
  have hlost : ∀ o, o ∈ gained t s ↔ s.Holds o ∧ (history [v]).Spends o := by
    intro o
    rw [mem_gained, hholds', hhistory, History.revealsAt_append, History.spends_append]
    refine and_congr_right fun hheld => ?_
    obtain ⟨hreveals, hspends⟩ := (hholds o).1 hheld
    constructor
    · intro hnot
      by_contra hspends'
      exact hnot ⟨.inl hreveals, not_or.2 ⟨hspends, hspends'⟩⟩
    · exact fun hspends' hholds => hholds.2 (.inr hspends')
  refine ⟨s, t, _, hs, applyCounting_eq_ok ht, rfl, hgained, hlost, ?_⟩
  constructor
  · intro hn o ho hspends
    have hpos := List.length_pos_of_mem ((hlost o).2 ⟨ho, hspends⟩)
    omega
  · intro hnone
    have hnil : gained t s = [] :=
      List.eq_nil_iff_forall_not_mem.2 fun o ho => hnone o ((hlost o).1 ho).1 ((hlost o).1 ho).2
    rw [hnil, List.length_nil]
    omega

end ContractState

/-! ## Rights passed on under concealed seals -/

namespace Consignment

open Codec

/-- A consignment of rights that are only granted. -/
def granted (schemaId : SchemaId) : Consignment :=
  { smallest schemaId with
    genesis := granting schemaId
    schema := rightsSchema }

variable {schemaId : SchemaId}

theorem written_granted : codec.Written (granted schemaId).toValue := by
  have hbundles : (Codec.list WitnessBundle.codec { min := 0, max := 0xffffff } none).Written
      (.tuple []) := written_list_iff.2 ⟨rfl, List.forall_mem_nil _⟩
  exact (written_record_iff (by decide) rfl).2 ⟨written_version, written_noTransfer,
    written_mapping_nil rfl, written_granting, hbundles, written_rightsSchema, written_noTypes,
    ⟨_, write_set_nil rfl⟩, trivial⟩

/-- A consignment of rights that are only granted is consistent. -/
theorem consistent_granted (hschema : rightsSchema.schemaId = .ok schemaId) :
    (granted schemaId).Consistent where
  encodable :=
    { schema := written_rightsSchema
      genesis := written_granting
      inputMaps := List.forall_mem_nil _
      transitions := List.forall_mem_nil _
      whole := written_granted }
  reference := hschema
  schema := passes_rightsSchema
  genesis _ := Operation.passes_validate_iff.2 conformsTo_granting
  transitions := List.forall_mem_nil _
  links := List.forall_mem_nil _
  terminals := List.forall_mem_nil _
  scripts := by
    show ∀ e ∈ rightsSchema.libSites, _
    rw [libSites_rightsSchema]
    exact List.forall_mem_nil _

/-- Rights that are granted, and a consignment of the same contract with two views of a bundle that
passes them on: both are accepted. -/
theorem exists_granted_handing : ∃ (schemaId : SchemaId) (genesis first second : OpId)
    (bundle : BundleId) (secret : SecretSeal) (x y : View genesis first second)
    (v w : ValidConsignment), v.Accepted ∧ w.Accepted ∧ v.consignment = granted schemaId ∧
      w.consignment = handing schemaId [x.toBundle, y.toBundle] bundle secret ∧
      v.contractId = genesis.cast .contract ∧ w.contractId = genesis.cast .contract := by
  let secret : SecretSeal := zeroId .secretSeal
  obtain ⟨schemaId, genesis, first, second, bundle, x, y, -, -, -, -, hconsistent, -⟩ :=
    exists_consistent_views secret secret
  obtain ⟨v, hv, hidentifies⟩ := (consistent_granted hconsistent.reference).exists_accepted
  obtain ⟨w, hw, hidentifies'⟩ := hconsistent.exists_accepted
  -- a right that is passed on is one of the contract, and both genesis are the same
  have hcontract : (granting schemaId).contractId = .ok (genesis.cast .contract) :=
    (hconsistent.links x.toBundle (List.mem_cons_self ..) _ (List.mem_singleton_self _)).contract
  exact ⟨schemaId, genesis, first, second, bundle, secret, x, y, v, w, hv, hw,
    hidentifies.consignment, hidentifies'.consignment,
    Except.ok.inj (hidentifies.contractId.symm.trans hcontract),
    Except.ok.inj (hidentifies'.contractId.symm.trans hcontract)⟩

end Consignment

namespace ContractState

open Consignment ValidConsignment

variable {schemaId : SchemaId} {genesis first second : OpId}

/-- The history of a consignment of rights that are only granted is the genesis. -/
theorem history_granted {v : ValidConsignment} (hv : v.Accepted)
    (hgranted : v.consignment = granted schemaId) (hid : v.contractId = genesis.cast .contract) :
    history [v] = [(genesis, .genesis (granting schemaId))] := by
  rw [history, List.flatMap_singleton, hv.identified_eq, hid, hgranted]
  rfl

/-- A right of the genesis is revealed. -/
theorem revealsAt_granting {h : History} (hmem : (genesis, .genesis (granting schemaId)) ∈ h)
    {index : Int} (hindex : index = 0 ∨ index = 1) : h.RevealsAt ⟨genesis, 0, index⟩ := by
  refine ⟨.declarative, .null, _, hmem, rfl, zeroSeal, ?_⟩
  rcases hindex with rfl | rfl <;> rfl

/-- A right that is passed on to a concealed seal is not revealed. -/
theorem slot?_passing_ne_revealed {index : Int} {secret : SecretSeal} {o : Opout} {kind : StateKind}
    {definition : Seal} {state : Value} :
    (passing genesis index secret).state.slot? o ≠ some (kind, .revealed definition state) := by
  intro hslot
  obtain ⟨a, ha, -, i, -, hi⟩ := OperationState.slot?_eq_some.1 hslot
  obtain ⟨-, rfl⟩ := Prod.ext_iff.1 (List.mem_singleton.1 (Table.mem_entries.2 ha))
  cases List.mem_singleton.1 (List.mem_of_getElem? hi)

/-- Views reveal nothing new. -/
theorem revealsAt_of_views {views : List (View genesis first second)} {o : Opout}
    (h : History.RevealsAt ((genesis, .genesis (granting schemaId)) ::
      views.map fun x => (x.id, .transition (passing genesis x.index x.secret))) o) :
    History.RevealsAt [(genesis, .genesis (granting schemaId))] o := by
  obtain ⟨kind, state, y, hy, hop, definition, hslot⟩ := h
  rcases List.mem_cons.1 hy with rfl | hy
  · exact ⟨kind, state, _, List.mem_singleton_self _, hop, definition, hslot⟩
  · obtain ⟨x, -, rfl⟩ := List.mem_map.1 hy
    exact absurd hslot slot?_passing_ne_revealed

/-- The rights of a genesis are held, and then passed on to concealed seals: the number of the
application is negative, although nothing is gained. -/
theorem applyCounting_negative : ∃ (v w : ValidConsignment) (s t : ContractState) (n : Int),
    v.Accepted ∧ w.Accepted ∧ w.contractId = v.contractId ∧
      [v].foldlM apply (empty v.contractId) = .ok s ∧ s.applyCounting w = .ok (n, t) ∧
      gained s t = [] ∧ n < 0 := by
  obtain ⟨schemaId, genesis, first, second, bundle, secret, x, y, v, w, hv, hw, hgranted, hhanding,
    hid, hid'⟩ := exists_granted_handing
  have hsame : w.contractId = v.contractId := hid'.trans hid.symm
  have hboth : ∀ u ∈ [v] ++ [w], u.Accepted ∧ u.contractId = v.contractId :=
    List.forall_mem_cons.2 ⟨⟨hv, rfl⟩, List.forall_mem_singleton.2 ⟨hw, hsame⟩⟩
  obtain ⟨s, t, hs, ht, hholds, hholds'⟩ := exists_apply hboth
  have hfirst : history [v] = [(genesis, .genesis (granting schemaId))] :=
    history_granted hv hgranted hid
  have hsecond : history [w] = (genesis, .genesis (granting schemaId)) ::
      [x, y].map fun z => (z.id, .transition (passing genesis z.index z.secret)) :=
    history_handing hw hhanding hid'
  have hhistory : history ([v] ++ [w]) = history [v] ++ history [w] := List.flatMap_append
  have hunspent : ∀ o, ¬ (history [v]).Spends o := by
    rw [hfirst]
    simp [History.Spends, Operation.inputs]
  have hgained : gained s t = [] := by
    refine List.eq_nil_iff_forall_not_mem.2 fun o ho => ?_
    obtain ⟨ho, hnot⟩ := mem_gained.1 ho
    obtain ⟨hreveals, -⟩ := (hholds' o).1 ho
    rw [hhistory, History.revealsAt_append, hfirst, hsecond] at hreveals
    refine hnot ((hholds o).2 ⟨?_, hunspent o⟩)
    rw [hfirst]
    exact hreveals.elim id revealsAt_of_views
  -- the right that the first view passes on is lost
  have hlost : ⟨genesis, 0, x.index⟩ ∈ gained t s := by
    refine mem_gained.2 ⟨(hholds _).2 ⟨?_, hunspent _⟩, fun ho => ((hholds' _).1 ho).2 ?_⟩
    · rw [hfirst]
      exact revealsAt_granting (List.mem_singleton_self _) x.number
    · rw [hhistory, hsecond]
      refine History.spends_append.2 (.inr ⟨_, List.mem_cons_of_mem _ (List.mem_cons_self ..), ?_⟩)
      exact List.mem_singleton_self _
  refine ⟨v, w, s, t, _, hv, hw, hsame, hs, applyCounting_eq_ok ht, hgained, ?_⟩
  have hpos := List.length_pos_of_mem hlost
  rw [hgained, List.length_nil]
  omega

/-- Rights that are granted in a contract of which nothing is known: the number of the application is
that of the gained places. -/
theorem applyCounting_eq_gained_sub_lost_granted : ∃ (v : ValidConsignment) (t : ContractState),
    v.Accepted ∧ (empty v.contractId).applyCounting v =
      .ok ((gained (empty v.contractId) t).length, t) := by
  obtain ⟨-, -, -, -, -, -, -, -, v, -, hv, -⟩ := exists_granted_handing
  obtain ⟨s, t, n, hs, ht, -, -, -, hiff⟩ :=
    @applyCounting_eq_gained_sub_lost v.contractId [] v (List.forall_mem_singleton.2 ⟨hv, rfl⟩)
  obtain rfl := Except.ok.inj hs
  refine ⟨v, t, hv, ?_⟩
  rw [ht, hiff.2 nofun]

end ContractState

end StrictContract
