import StrictContract.Proofs.Contract.Remembering

/-! # Recounting — the global state that one consignment shows

A consignment **lists** items of a type of global state: those of its genesis, then bundle after bundle
those of the known transitions in ascending order of their ids. The state of an accepted consignment
alone remembers each of them where it is listed first, and shows the last of what it remembers, the
newest item first, as many as its schema says. It answers for the types that the schema declares, and
for no others. -/

namespace StrictContract

open Codec

/-! ## First occurrences -/

/-- Whether two items are set by the same operation at the same position. -/
def GlobalItem.sameKey (x y : GlobalItem) : Bool := decide (x.key = y.key)

namespace ContractState

/-- What is learnt are the first occurrences among the items that are not known. -/
theorem learn_eq_append_firsts (known items : List GlobalItem) :
    learn known items = known ++ (news known items).eraseDupsBy GlobalItem.sameKey := by
  induction items generalizing known with
  | nil => exact (List.append_nil known).symm
  | cons x items ih =>
    have hlearn : learn known (x :: items) = learn (addItem known x) items := rfl
    by_cases hx : x.key ∈ known.map GlobalItem.key
    · have hnews : news known (x :: items) = news known items :=
        List.filter_cons_of_neg (by simpa using hx)
      rw [hlearn, addItem_eq, if_pos hx, hnews, ih]
    · have hnews : news known (x :: items) = x :: news known items :=
        List.filter_cons_of_pos (decide_eq_true hx)
      -- once an item is learnt, those with its key are no news
      have hrest : news (known ++ [x]) items =
          (news known items).filter fun y => y.sameKey x = false := by
        rw [news, news, List.filter_filter]
        refine List.filter_congr fun y _ => ?_
        simp [GlobalItem.sameKey, and_comm]
      rw [hlearn, addItem_eq, if_neg hx, hnews, ih, hrest, List.eraseDupsBy_cons, List.append_assoc,
        List.singleton_append]

/-- From nothing, the first occurrences are learnt. -/
theorem learn_nil_eq_firsts (items : List GlobalItem) :
    learn [] items = items.eraseDupsBy GlobalItem.sameKey := by
  have hnews : news [] items = items := List.filter_eq_self.2 fun x _ => rfl
  rw [learn_eq_append_firsts, hnews, List.nil_append]

end ContractState

/-! ## Listed items -/

/-- The items of a type that an operation with this state lists, with their positions. -/
def OperationState.listed (state : OperationState) (id : OpId) (witness : Option Txid) (type : Int) :
    List GlobalItem :=
  ((state.globals.get? type).getD []).zipIdx.map fun x => ⟨id, x.2, x.1, witness⟩

namespace ValidConsignment

open ContractState

variable {v : ValidConsignment}

/-- The items of a type that a consignment **lists**: those of the genesis, then those of the known
transitions of each bundle. -/
def listed (v : ValidConsignment) (type : Int) : List GlobalItem :=
  v.consignment.genesis.state.listed (v.contractId.cast .operation) none type ++
    v.consignment.bundles.flatMap fun w => w.bundle.transitions.flatMap fun e =>
      e.2.state.listed e.1 (some w.witness.witnessId) type

/-- What is listed is what the entries of the chronicle set. -/
theorem flatMap_itemsSet_told (v : ValidConsignment) (type : Int) :
    v.told.flatMap (itemsSet · type) = v.listed type := by
  rw [told, List.flatMap_cons, List.flatMap_assoc]
  simp only [List.flatMap_map]
  rfl

theorem learnt_eq_firsts (v : ValidConsignment) (type : Int) :
    v.learnt type = (v.listed type).eraseDupsBy GlobalItem.sameKey := by
  rw [learnt, flatMap_itemsSet_told, learn_nil_eq_firsts]

end ValidConsignment

/-- The known transitions of a bundle are taken in strictly ascending order of their ids. -/
theorem Bundle.transitions_ascending (b : Bundle) : b.transitions.Perm b.known.entries ∧
    b.transitions.Pairwise fun d e => d.1.octets < e.1.octets := by
  refine ⟨List.mergeSort_perm .., pairwise_lt_mergeSort (fun e : OpId × Transition => e.1.octets) ?_⟩
  have hoctets : (b.known.entries.map fun e => e.1.octets) =
      (b.known.entries.map Prod.fst).map Id.octets := (List.map_map ..).symm
  rw [hoctets]
  exact b.known.nodup.map fun _ _ => Id.ext

/-! ## Limits -/

/-- A number that an unsigned codec writes is not negative. -/
theorem Codec.nonneg_of_written_uint {size : Nat} {n : Int} (h : (uint size).Written (.int n)) :
    0 ≤ n := by
  obtain ⟨p, hp⟩ := h
  obtain ⟨v, hv, halike⟩ := recovers_uint size (.int n) p hp
  obtain ⟨m, rfl⟩ := reads_uint size v ⟨p, hv⟩
  obtain rfl := Value.Alike.int_iff.1 halike
  exact Int.natCast_nonneg m

/-- The limits of a schema that has an encoding are not negative. -/
theorem Schema.nonneg_maxItems {schema : Schema} (h : ∃ octets, schema.encode = .ok octets) {type : Int}
    {d : GlobalDetails} (hd : schema.globalTypes.get? type = some d) : 0 ≤ d.maxItems := by
  obtain ⟨-, -, hglobals, -⟩ := (written_record_iff (by decide) rfl).1 h
  have hentry := written_of_mapping hglobals _ (List.mem_map_of_mem (Table.mem_entries.2 hd))
  obtain ⟨-, hlimit, -⟩ := (written_record_iff (by decide) rfl).1 hentry.2
  exact nonneg_of_written_uint hlimit

/-! ## Accepted consignments -/

namespace ContractState

open ValidConsignment

variable {v : ValidConsignment}

/-- **What one consignment shows.** An accepted consignment has a state. For a type of global state that
its schema declares, the state shows the items that the consignment lists, each where it is listed first,
from the last one back and as many as the schema says. For a type that the schema does not declare, and
for no other, there is no answer. -/
theorem globalState_ofConsignment (hv : v.Accepted) : ∃ s, ofConsignment v = .ok s ∧
    (∀ type d, v.consignment.schema.globalTypes.get? type = some d → 0 ≤ d.maxItems ∧
      s.globalState type = .ok
        (((v.listed type).eraseDupsBy GlobalItem.sameKey).reverse.take d.maxItems.toNat)) ∧
    (∀ type, s.globalState type =
        misuse (.missingKey s!"global state type {type} is not declared by the contract schema") ↔
      v.consignment.schema.globalTypes.get? type = none) ∧
    ∀ w ∈ v.consignment.bundles, w.bundle.transitions.Perm w.bundle.known.entries ∧
      w.bundle.transitions.Pairwise fun d e => d.1.octets < e.1.octets := by
  have hdeclared : ∀ type d, v.consignment.schema.globalTypes.get? type = some d →
      ((empty v.contractId).replay v).globalState type = .ok
        (((v.listed type).eraseDupsBy GlobalItem.sameKey).reverse.take d.maxItems.toNat) := by
    intro type d hd
    rw [globalState_at_once _ hv hd, learnt_eq_firsts]
  refine ⟨_, apply_eq_replay hv rfl, fun type d hd => ⟨?_, hdeclared type d hd⟩, fun type => ?_,
    fun w _ => w.bundle.transitions_ascending⟩
  · exact Schema.nonneg_maxItems hv.consistent.encodable.schema hd
  constructor
  · intro hmissing
    cases hd : v.consignment.schema.globalTypes.get? type with
    | none => rfl
    | some d =>
      rw [hdeclared type d hd] at hmissing
      cases hmissing
  · intro hnone
    refine globalState_of_not_contains ?_
    rw [contains_replay _ hv, Table.contains, Table.contains, hnone]
    rfl

/-- A post under two witnesses: its item is shown once, under the first of them. -/
theorem globalState_ofConsignment_twice : ∃ (genesis : OpId) (a : Consignment.Post genesis)
    (v : ValidConsignment) (s : ContractState), v.Accepted ∧ ofConsignment v = .ok s ∧
      s.globalState 0 = .ok [a.item (Consignment.uniformTxid 17)] := by
  obtain ⟨schemaId, genesis, a, -, -, -, hboards⟩ := Consignment.exists_boards
  obtain ⟨v, hv, hboard, hid⟩ := hboards
    [(a, Consignment.uniformTxid 17), (a, Consignment.uniformTxid 34)] (Nat.le_of_ble_eq_true rfl)
  obtain ⟨s, hs, hdeclared, -⟩ := globalState_ofConsignment hv
  have hd : v.consignment.schema.globalTypes.get? 0 =
      some ⟨Id.ofContent .sem Consignment.unitOctets, 2, .text "g"⟩ := by
    rw [hboard]
    rfl
  refine ⟨genesis, a, v, s, hv, hs, (hdeclared 0 _ hd).2.trans (congrArg Except.ok ?_)⟩
  rw [← learnt_eq_firsts, learnt_board hboard hid]
  simp [learn, addItem, Consignment.Post.item]

end ContractState

end StrictContract
