import Mathlib.Algebra.GroupWithZero.Nat
import StrictContract.Proofs.Contract.Replay

/-! # Spending — what is owned after consignments in any order

What a contract owns is a set-theoretic matter: an assignment is unspent when some operation reveals
it and none spends it. A state that has replayed the operations of its consignments **reflects** them,
so neither the order of the consignments nor their repetition matters. Operations with one id have to
be alike for this; then they assign alike state at the same places. -/

namespace StrictContract

/-! ## Alike operations -/

/-- What is alike to a revealed assignment is a revealed one of alike state. -/
theorem Assignment.eq_revealed_of_alike {definition : Seal} {state : Value} {a : Assignment}
    (h : (revealed definition state).toValue.Alike a.toValue) :
    ∃ definition' state', a = .revealed definition' state' ∧ state.Alike state' := by
  cases a with
  | revealed definition' state' =>
    obtain ⟨-, -, -, -, hstate, -⟩ := (Value.Alike.record_iff (by decide)).1 h
    exact ⟨definition', state', rfl, hstate⟩
  | confidential secret state' =>
    obtain ⟨htype, -⟩ := (Value.Alike.record_iff (by decide)).1 h
    exact absurd htype (by decide)

namespace Assignments

/-- Alike assignments of one type are of one kind and have alike items. -/
theorem alike_items {a b : Assignments} (h : a.toValue.Alike b.toValue) : a.kind = b.kind ∧
    ∀ (i : Nat) x, a.items[i]? = some x → ∃ y, b.items[i]? = some y ∧ x.toValue.Alike y.toValue := by
  have hlib : recordName a.kind ≠ "Lib" := by
    cases a.kind <;> decide
  obtain ⟨hname, -, hitems, -⟩ := (Value.Alike.record_iff hlib).1 h
  obtain ⟨xs, hfst, hsnd, hxs⟩ := hitems.tuple_left
  have hsnd := Value.tuple.inj hsnd
  -- both lists of items are the sides of one list of alike pairs
  refine ⟨recordName_inj hname, fun i x hx => ?_⟩
  have hi : (xs.map Prod.fst)[i]? = some x.toValue := by
    rw [← hfst, List.getElem?_map, hx]
    rfl
  rw [List.getElem?_map, Option.map_eq_some_iff] at hi
  obtain ⟨z, hz, hzx⟩ := hi
  have hj : (b.items.map Assignment.toValue)[i]? = some z.2 := by
    rw [hsnd, List.getElem?_map, hz]
    rfl
  rw [List.getElem?_map, Option.map_eq_some_iff] at hj
  obtain ⟨y, hy, hyz⟩ := hj
  refine ⟨y, hy, ?_⟩
  rw [← hzx, hyz]
  exact hxs z (List.mem_of_getElem? hz)

end Assignments

/-- Every operation is a record with its global state and its assignments among the fields. -/
theorem Operation.exists_fields (x : Operation) : ∃ type fields, x.toValue = .record type fields ∧
    type ≠ "Lib" ∧ fields.lookup "globals" = some x.state.globalsValue ∧
    fields.lookup "assignments" = some x.state.assignmentsValue := by
  cases x <;> exact ⟨_, _, rfl, by decide, rfl, rfl⟩

/-- Alike operations set alike global state and alike assignments. -/
theorem Operation.alike_state {x y : Operation} (h : x.toValue.Alike y.toValue) :
    x.state.globalsValue.Alike y.state.globalsValue ∧
      x.state.assignmentsValue.Alike y.state.assignmentsValue := by
  obtain ⟨type, fields, hx, hlib, hglobals, hassignments⟩ := x.exists_fields
  obtain ⟨type', fields', hy, -, hglobals', hassignments'⟩ := y.exists_fields
  rw [hx, hy] at h
  obtain ⟨-, hfields⟩ := (Value.Alike.record_iff hlib).1 h
  obtain ⟨globals, hfound, halike⟩ := hfields.exists_lookup hglobals
  obtain ⟨assignments, hfound', halike'⟩ := hfields.exists_lookup hassignments
  rw [hglobals'] at hfound
  rw [hassignments'] at hfound'
  cases hfound
  cases hfound'
  exact ⟨halike, halike'⟩

/-- Alike operations set alike assignments. -/
theorem Operation.alike_assignments {x y : Operation} (h : x.toValue.Alike y.toValue) :
    x.state.assignmentsValue.Alike y.state.assignmentsValue :=
  (alike_state h).2

/-- Alike assignments have alike items at the same places, of the same kinds. -/
theorem OperationState.exists_slot?_of_alike {s t : OperationState}
    (h : s.assignmentsValue.Alike t.assignmentsValue) {o : Opout} {kind : StateKind} {x : Assignment}
    (hx : s.slot? o = some (kind, x)) :
    ∃ y, t.slot? o = some (kind, y) ∧ x.toValue.Alike y.toValue := by
  obtain ⟨a, ha, rfl, i, hi, hx⟩ := OperationState.slot?_eq_some.1 hx
  obtain ⟨b, hb, hab⟩ := Table.exists_get?_of_alike (fun _ _ => Value.Alike.int_iff.1) h ha
  obtain ⟨hkind, hitems⟩ := Assignments.alike_items hab
  obtain ⟨y, hy, hxy⟩ := hitems i x hx
  exact ⟨y, OperationState.slot?_eq_some.2 ⟨b, hb, hkind.symm, i, hi, hy⟩, hxy⟩

namespace History

variable {h : History}

/-- A history is **coherent** when operations with one id are alike. -/
def Coherent (h : History) : Prop := ∀ x ∈ h, ∀ y ∈ h, x.1 = y.1 → x.2.toValue.Alike y.2.toValue

/-- A history of entries of a list in which all ids are different is coherent. -/
theorem Coherent.of_nodup {all : History} (hnodup : (all.map Prod.fst).Nodup) (hsub : ∀ x ∈ h, x ∈ all) :
    h.Coherent := by
  intro x hx y hy heq
  rw [List.inj_on_of_nodup_map hnodup (hsub x hx) (hsub y hy) heq]
  exact .refl _

/-- A coherent history reveals alike state of one kind at a place. -/
theorem Coherent.reveals_unique (hcoherent : h.Coherent) {kind kind' : StateKind} {o : Opout}
    {state state' : Value} (hstate : h.Reveals kind o state) (hstate' : h.Reveals kind' o state') :
    kind = kind' ∧ state.Alike state' := by
  obtain ⟨x, hx, hxo, definition, hslot⟩ := hstate
  obtain ⟨y, hy, hyo, definition', hslot'⟩ := hstate'
  -- both operations have the id that the place names, so they are alike
  have halike := Operation.alike_assignments (hcoherent x hx y hy (hxo.trans hyo.symm))
  obtain ⟨z, hz, hrevealed⟩ := OperationState.exists_slot?_of_alike halike hslot
  obtain ⟨definition'', state'', rfl, hstates⟩ := Assignment.eq_revealed_of_alike hrevealed
  rw [hz] at hslot'
  cases hslot'
  exact ⟨rfl, hstates⟩

end History

/-! ## Amounts -/

section

open Codec

/-- The state of an assignment that is read is read by the codec of its kind. -/
theorem Assignment.readable_state {kind : StateKind} {a : Assignment}
    (h : (codec kind).Readable a.toValue) : kind.codec.Readable a.state := by
  obtain ⟨x, hx, hreadable⟩ := (readable_union (recordVariants kind)).1 h
  have hstate : ∃ name fields type, x.2.2 = .struct name fields (.record type) false ∧
      ("state", kind.codec) ∈ fields := by
    simp only [variants, codec, List.mem_cons, List.not_mem_nil, or_false] at hx
    rcases hx with rfl | rfl <;> exact ⟨_, _, _, rfl, by simp⟩
  obtain ⟨name, fields, type, hstruct, hmem⟩ := hstate
  rw [hstruct] at hreadable
  -- revealed or not, an assignment has one field with its state
  cases a with
  | revealed definition state | confidential secret state =>
    obtain ⟨v, hv, hread⟩ := exists_readable_field hreadable hmem
    obtain rfl : v = state := by simpa using hv
    exact hread

/-- The items of assignments that are read are read by the codec of their kind. -/
theorem Assignments.readable_items {a : Assignments} (h : codec.Readable a.toValue) :
    ∀ x ∈ a.items, (Assignment.codec a.kind).Readable x.toValue := by
  obtain ⟨y, hy, hreadable⟩ := (readable_union recordVariants).1 h
  obtain ⟨⟨tag, kind⟩, -, rfl⟩ := List.mem_map.1 hy
  obtain ⟨vs, -, hrecord⟩ := readable_record.1 hreadable
  obtain ⟨hname, -⟩ := Value.record.inj hrecord
  rw [← recordName_inj hname]
  obtain ⟨v, hv, hlist⟩ := exists_readable_field hreadable (List.mem_singleton.2 rfl)
  obtain ⟨-, rfl⟩ := Prod.ext_iff.1 (List.mem_singleton.1 hv)
  exact List.forall_mem_map.1 (readable_list hlist).2

/-- The assignment at a place of assignments that are read is read by the codec of its kind. -/
theorem OperationState.readable_slot {s : OperationState}
    (h : assignmentsCodec.Readable s.assignmentsValue) {o : Opout} {kind : StateKind} {x : Assignment}
    (hx : s.slot? o = some (kind, x)) : (Assignment.codec kind).Readable x.toValue := by
  obtain ⟨a, ha, rfl, i, hi, hx⟩ := slot?_eq_some.1 hx
  obtain ⟨-, hentries⟩ := readable_mapping (keyed_uint 2) h
  have hentry := List.forall_mem_map.1 hentries _ (Table.mem_entries.2 ha)
  exact Assignments.readable_items hentry.2 x (List.mem_of_getElem? hx)

/-- The state at a place of assignments that are read is read by the codec of its kind. -/
theorem OperationState.readable_state {s : OperationState}
    (h : assignmentsCodec.Readable s.assignmentsValue) {o : Opout} {kind : StateKind} {x : Assignment}
    (hx : s.slot? o = some (kind, x)) : kind.codec.Readable x.state :=
  Assignment.readable_state (readable_slot h hx)

/-- The assignments of a genesis that is read are read. -/
theorem Genesis.readable_assignments {g : Genesis} (h : codec.Readable g.toValue) :
    OperationState.assignmentsCodec.Readable g.state.assignmentsValue := by
  obtain ⟨v, hv, hread⟩ := exists_readable_field (f := ("assignments", OperationState.assignmentsCodec))
    h (by simp)
  obtain rfl : v = g.state.assignmentsValue := by simpa using hv
  exact hread

/-- The assignments of a transition that is read are read. -/
theorem Transition.readable_assignments {t : Transition} (h : codec.Readable t.toValue) :
    OperationState.assignmentsCodec.Readable t.state.assignmentsValue := by
  obtain ⟨v, hv, hread⟩ := exists_readable_field (f := ("assignments", OperationState.assignmentsCodec))
    h (by simp)
  obtain rfl : v = t.state.assignmentsValue := by simpa using hv
  exact hread

/-- An operation that has an encoding is alike to one of which the assignments are read. -/
theorem Operation.exists_readable {x : Operation} {p : Octets} (h : x.encode = .ok p) :
    ∃ y : Operation, x.toValue.Alike y.toValue ∧
      OperationState.assignmentsCodec.Readable y.state.assignmentsValue := by
  cases x with
  | genesis g =>
    obtain ⟨q, hq, -⟩ := encode_genesis_eq_ok.1 h
    obtain ⟨v, hv, halike⟩ := Genesis.recovers_codec g q hq
    obtain ⟨g', rfl⟩ := Genesis.reads_codec v ⟨q, hv⟩
    exact ⟨.genesis g', halike, Genesis.readable_assignments ⟨q, hv⟩⟩
  | transition t =>
    obtain ⟨q, hq, -⟩ := encode_transition_eq_ok.1 h
    obtain ⟨v, hv, halike⟩ := Transition.recovers_codec t q hq
    obtain ⟨t', rfl⟩ := Transition.reads_codec v ⟨q, hv⟩
    exact ⟨.transition t', halike, Transition.readable_assignments ⟨q, hv⟩⟩

/-- The state of an encodable operation at a place for amounts is a number. -/
theorem Operation.exists_amount {x : Operation} {p : Octets} (h : x.encode = .ok p) {o : Opout}
    {definition : Seal} {state : Value}
    (hslot : x.state.slot? o = some (.fungible, .revealed definition state)) :
    ∃ n : Nat, state.number? = some (n : Int) := by
  obtain ⟨y, halike, hreadable⟩ := exists_readable h
  obtain ⟨z, hz, hrevealed⟩ := OperationState.exists_slot?_of_alike (alike_assignments halike) hslot
  obtain ⟨definition', state', rfl, hstate⟩ := Assignment.eq_revealed_of_alike hrevealed
  obtain ⟨n, rfl⟩ := reads_uint 8 _ (OperationState.readable_state hreadable hz)
  exact ⟨n, hstate.symm.number_left rfl⟩

end

namespace History

variable {h : History}

/-- A function **measures** a history when it gives the amount of every revealed assignment. -/
def Measures (h : History) (amount : Opout → Nat) : Prop :=
  ∀ o state, h.Reveals .fungible o state → state.number? = some (amount o : Int)

/-- The amounts of a coherent history of encodable operations can be measured. -/
theorem Coherent.exists_measures (hcoherent : h.Coherent)
    (hencodable : ∀ x ∈ h, ∃ p, x.2.encode = .ok p) : ∃ amount, h.Measures amount := by
  have hnumber : ∀ o, ∃ n : Nat, ∀ state, h.Reveals .fungible o state →
      state.number? = some (n : Int) := by
    intro o
    by_cases hsome : ∃ state, h.Reveals .fungible o state
    · obtain ⟨state, hstate⟩ := hsome
      obtain ⟨x, hx, -, definition, hslot⟩ := id hstate
      obtain ⟨p, hp⟩ := hencodable x hx
      obtain ⟨n, hn⟩ := Operation.exists_amount hp hslot
      refine ⟨n, fun state' hstate' => ?_⟩
      exact (hcoherent.reveals_unique hstate hstate').2.number_left hn
    · -- a place where nothing is revealed may have any amount
      exact ⟨0, fun state hstate => absurd ⟨state, hstate⟩ hsome⟩
  obtain ⟨amount, hamount⟩ := Classical.axiomOfChoice hnumber
  exact ⟨amount, hamount⟩

end History

/-! ## Listings -/

namespace ContractState

variable {s t : ContractState} {id : ContractId} {h : History}

/-- The unspent places of a kind of state, as they are listed. -/
def unspent (s : ContractState) (kind : StateKind) : List Opout :=
  (s.select kind none none).map Output.opout

/-- No output of a **pruned** state is spent. -/
def Pruned (s : ContractState) : Prop := ∀ o ∈ s.spent, s.outputs.get? o = none

theorem Pruned.not_mem_spent (hs : s.Pruned) {o : Opout} {out : Output}
    (hout : s.outputs.get? o = some out) : o ∉ s.spent := by
  intro hspent
  rw [hs o hspent] at hout
  cases hout

/-- What is listed of a kind are the sorted outputs of the kind. -/
theorem select_eq (s : ContractState) (kind : StateKind) : s.select kind none none =
    ((s.outputs.sorted Opout.le).map Prod.snd).filter fun out => out.kind == kind := by
  simp [select]

/-- What is listed of a kind and a type is what is listed of the kind, if it is of the type. -/
theorem select_type_eq (s : ContractState) (kind : StateKind) (type : Int) :
    s.select kind none (some type) =
      (s.select kind none none).filter fun out => type == out.opout.type := by
  simp [select, Bool.and_comm]

/-- A sum of numbers, in a loop. -/
theorem foldl_amounts {α : Type} {f : α → Int} {g : α → Nat} {xs : List α}
    (hf : ∀ x ∈ xs, f x = g x) (start : Int) :
    xs.foldl (fun sum x => sum + f x) start = start + (xs.map g).sum := by
  induction xs generalizing start with
  | nil => simp
  | cons x xs ih =>
    rw [List.forall_mem_cons] at hf
    rw [List.foldl_cons, ih hf.2, hf.1, List.map_cons, List.sum_cons]
    omega

namespace Replayed

/-- What is unspent are the sorted places of the outputs of the kind. -/
theorem unspent_eq (hs : Replayed id h s) (kind : StateKind) : s.unspent kind =
    ((s.outputs.sorted Opout.le).filter fun e => e.2.kind == kind).map Prod.fst := by
  rw [ContractState.unspent, select_eq, List.filter_map, List.map_map]
  refine List.map_congr_left fun e he => ?_
  have hmem := Table.mem_sorted.1 (List.mem_filter.1 he).1
  exact (hs.output e.1 e.2 (Table.mem_entries.1 hmem)).1

/-- An unspent place of a kind is that of an output of the kind. -/
theorem mem_unspent (hs : Replayed id h s) {kind : StateKind} {o : Opout} :
    o ∈ s.unspent kind ↔ ∃ out, s.outputs.get? o = some out ∧ out.kind = kind := by
  rw [hs.unspent_eq, List.mem_map]
  constructor
  · rintro ⟨e, he, rfl⟩
    obtain ⟨he, hkind⟩ := List.mem_filter.1 he
    exact ⟨e.2, Table.mem_entries.1 (Table.mem_sorted.1 he), eq_of_beq hkind⟩
  · rintro ⟨out, hout, rfl⟩
    refine ⟨(o, out), List.mem_filter.2 ⟨?_, beq_self_eq_true _⟩, rfl⟩
    exact Table.mem_sorted.2 (Table.mem_entries.2 hout)

/-- What is unspent is listed in ascending order, each place once. -/
theorem unspent_ascending (hs : Replayed id h s) (kind : StateKind) :
    ((s.unspent kind).Pairwise fun a b => a.le b = true) ∧ (s.unspent kind).Nodup := by
  have hsublist : (s.unspent kind).Sublist ((s.outputs.sorted Opout.le).map Prod.fst) := by
    rw [hs.unspent_eq]
    exact List.filter_sublist.map _
  refine ⟨List.Pairwise.sublist hsublist (List.pairwise_map.2 ?_), hsublist.nodup ?_⟩
  · refine List.pairwise_mergeSort ?_ ?_ _
    · intro a b c
      exact Opout.le_trans
    · intro a b
      exact Opout.le_total a.1 b.1
  · exact ((List.mergeSort_perm ..).map Prod.fst).nodup_iff.2 s.outputs.nodup

end Replayed

/-! ## What a state reflects -/

/-- A state **reflects** a history when its queries answer what the history says. -/
structure Reflects (s : ContractState) (h : History) : Prop where
  /-- What is listed of a kind is revealed and not spent. -/
  unspent : ∀ kind o, o ∈ s.unspent kind ↔ (∃ state, h.Reveals kind o state) ∧ ¬ h.Spends o
  ascending : ∀ kind, (s.unspent kind).Pairwise fun a b => a.le b = true
  nodup : ∀ kind, (s.unspent kind).Nodup
  isSpent : ∀ o, s.isSpent o = true ↔ h.Spends o
  /-- The balance of a type is the sum of the amounts that are listed. -/
  balance : ∀ amount, h.Measures amount → ∀ type, s.balance type =
    (((s.unspent .fungible).filter fun o => type == o.type).map amount).sum
  measured : ∃ amount, h.Measures amount
  /-- Terminals own what is concealed under them. -/
  terminals : ∀ secrets o, o ∈ s.ownedByTerminals secrets ↔ ∃ secret ∈ secrets, h.Conceals secret o

/-- A pruned state reflects the history it has replayed, if it is coherent and its operations can be
encoded. -/
theorem Replayed.reflects (hs : Replayed id h s) (hpruned : s.Pruned) (hcoherent : h.Coherent)
    (hencodable : ∀ x ∈ h, ∃ p, x.2.encode = .ok p) : s.Reflects h where
  unspent := by
    intro kind o
    rw [hs.mem_unspent]
    constructor
    · rintro ⟨out, hout, rfl⟩
      exact ⟨⟨_, (hs.output o out hout).2⟩, mt (hs.spent o).2 (hpruned.not_mem_spent hout)⟩
    · rintro ⟨⟨state, hstate⟩, hnot⟩
      -- the output that is there was revealed, too, so it is of the same kind
      obtain ⟨out, hout⟩ := hs.unspent kind o state hstate hnot
      exact ⟨out, hout, (hcoherent.reveals_unique (hs.output o out hout).2 hstate).1⟩
  ascending := fun kind => (hs.unspent_ascending kind).1
  nodup := fun kind => (hs.unspent_ascending kind).2
  isSpent := by
    intro o
    rw [isSpent, List.contains_iff_mem, hs.spent]
  balance := by
    intro amount hamount type
    have houtput : ∀ out ∈ s.select .fungible none (some type),
        out.state.number?.getD 0 = (amount out.opout : Int) := by
      intro out hout
      rw [select_type_eq, List.mem_filter, select_eq, List.mem_filter] at hout
      obtain ⟨⟨hout, hkind⟩, -⟩ := hout
      obtain ⟨⟨o, out⟩, he, rfl⟩ := List.mem_map.1 hout
      obtain ⟨ho, hreveals⟩ := hs.output o out (Table.mem_entries.1 (Table.mem_sorted.1 he))
      -- the amount of an output is that of a revealed assignment, hence the measured one
      rw [eq_of_beq hkind, ← ho] at hreveals
      rw [hamount _ _ hreveals, Option.getD_some]
    rw [ContractState.balance, foldl_amounts houtput, Int.zero_add, select_type_eq,
      ContractState.unspent, List.filter_map, List.map_map]
    rfl
  measured := hcoherent.exists_measures hencodable
  terminals := by
    intro secrets o
    simp only [ownedByTerminals, mem_distinct, List.mem_map, List.mem_filter]
    constructor
    · rintro ⟨⟨secret, o⟩, ⟨hmem, hsecret⟩, rfl⟩
      exact ⟨secret, List.contains_iff_mem.1 hsecret, (hs.concealed secret o).1 hmem⟩
    · rintro ⟨secret, hsecret, hconceals⟩
      exact ⟨(secret, o), ⟨(hs.concealed secret o).2 hconceals, List.contains_iff_mem.2 hsecret⟩, rfl⟩

/-- States that reflect one history give the same answers. -/
theorem Reflects.agree (hs : s.Reflects h) (ht : t.Reflects h) :
    (∀ kind, s.unspent kind = t.unspent kind) ∧ (∀ type, s.balance type = t.balance type) ∧
      ∀ o, s.isSpent o = t.isSpent o := by
  have hunspent : ∀ kind, s.unspent kind = t.unspent kind := by
    intro kind
    refine List.Perm.eq_of_pairwise (fun a b _ _ => Opout.le_antisymm) (hs.ascending kind)
      (ht.ascending kind) ?_
    rw [List.perm_ext_iff_of_nodup (hs.nodup kind) (ht.nodup kind)]
    exact fun o => (hs.unspent kind o).trans (ht.unspent kind o).symm
  refine ⟨hunspent, fun type => ?_, fun o => ?_⟩
  · obtain ⟨amount, hamount⟩ := hs.measured
    rw [hs.balance amount hamount, ht.balance amount hamount, hunspent]
  · exact Bool.eq_iff_iff.2 ((hs.isSpent o).trans (ht.isSpent o).symm)

/-- A history with the same operations is reflected as well. -/
theorem Replayed.of_mem_iff {h' : History} (hs : Replayed id h s) (hmem : ∀ x, x ∈ h ↔ x ∈ h') :
    Replayed id h' s := by
  have hreveals : h.Reveals = h'.Reveals := by
    funext kind o state
    simp only [History.Reveals, hmem]
  have hconceals : h.Conceals = h'.Conceals := by
    funext secret o
    simp only [History.Conceals, hmem]
  have hspends : h.Spends = h'.Spends := by
    funext o
    simp only [History.Spends, hmem]
  obtain ⟨hid, hspent, hconcealed, houtput, hunspent⟩ := hs
  rw [hreveals] at houtput hunspent
  rw [hspends] at hspent hunspent
  rw [hconceals] at hconcealed
  exact ⟨hid, hspent, hconcealed, houtput, hunspent⟩

end ContractState

namespace ValidConsignment

/-- The **history** of consignments: all their operations. -/
def history (vs : List ValidConsignment) : History := vs.flatMap fun v => v.consignment.identified

/-- The operations of a consignment that have an id can be encoded. -/
theorem exists_encode_of_mem_history {vs : List ValidConsignment} :
    ∀ x ∈ history vs, ∃ p, x.2.encode = .ok p := by
  intro x hx
  obtain ⟨v, -, hx⟩ := List.mem_flatMap.1 hx
  obtain ⟨o, -, hx⟩ := List.mem_filterMap.1 hx
  obtain ⟨id, hid, rfl⟩ := Option.map_eq_some_iff.1 hx
  obtain ⟨p, hp, -⟩ := bind_eq_ok.1 (toOption_eq_some.1 hid)
  exact ⟨p, hp⟩

end ValidConsignment

namespace ContractState

open ValidConsignment

/-- Accepted consignments of one contract are applied one after another. -/
theorem Replayed.foldlM {s : ContractState} {id : ContractId} {h : History}
    {vs : List ValidConsignment} (hvs : ∀ v ∈ vs, v.Accepted ∧ v.contractId = id)
    (hs : Replayed id h s) (hpruned : s.Pruned) :
    ∃ t, vs.foldlM ContractState.apply s = .ok t ∧ Replayed id (h ++ history vs) t ∧ t.Pruned := by
  induction vs generalizing h s with
  | nil => exact ⟨s, rfl, by rwa [history, List.flatMap_nil, List.append_nil], hpruned⟩
  | cons v vs ih =>
    rw [List.forall_mem_cons] at hvs
    obtain ⟨t, ht, hreplayed, hpruned'⟩ := hs.apply hvs.1.1 hvs.1.2
    obtain ⟨u, hu, hreplayed', hpruned''⟩ := ih hvs.2 hreplayed hpruned'
    refine ⟨u, ?_, ?_, hpruned''⟩
    · rw [List.foldlM_cons]
      exact bind_eq_ok.2 ⟨t, ht, hu⟩
    · rwa [history, List.flatMap_cons, ← List.append_assoc]

open Consignment in
/-- The history of a consignment of views is the genesis and the transitions of the views. -/
theorem history_handing {schemaId : SchemaId} {genesis first second : OpId}
    {views : List (View genesis first second)} {bundle : BundleId} {secret : SecretSeal}
    {w : ValidConsignment} (hw : w.Accepted)
    (hhanding : w.consignment = handing schemaId (views.map View.toBundle) bundle secret)
    (hid : w.contractId = genesis.cast .contract) :
    history [w] = (genesis, .genesis (granting schemaId)) ::
      views.map fun x => (x.id, .transition (passing genesis x.index x.secret)) := by
  have htransitions : ∀ x : View genesis first second, x.toBundle.bundle.transitions =
      [(x.id, passing genesis x.index x.secret)] := fun x => List.mergeSort_singleton _
  rw [history, List.flatMap_singleton, hw.identified_eq, hid, hhanding]
  refine congrArg (List.cons _) ?_
  rw [handing, List.flatMap_map, List.map_eq_flatMap]
  simp only [htransitions]
  rfl

/-- Accepted consignments of one contract can be applied in any order and with any repetition, and if
no two different operations share an id, the state then **refines spending**: it reflects the history
of all the consignments. So what is unspent, the balances and what is spent depend only on which
consignments were applied. -/
theorem apply_refines_spending {id : ContractId} {vs : List ValidConsignment}
    (hvs : ∀ v ∈ vs, v.Accepted ∧ v.contractId = id) (hcoherent : (history vs).Coherent) :
    ∃ s, vs.foldlM apply (empty id) = .ok s ∧ s.Reflects (history vs) ∧
      ∀ ws : List ValidConsignment, (∀ v, v ∈ ws ↔ v ∈ vs) →
        ∃ t, ws.foldlM apply (empty id) = .ok t ∧ t.Reflects (history vs) ∧
          (∀ kind, t.unspent kind = s.unspent kind) ∧
          (∀ type, t.balance type = s.balance type) ∧ ∀ o, t.isSpent o = s.isSpent o := by
  -- which operations a history has depends on the members of the list only
  have hrun : ∀ ws : List ValidConsignment, (∀ v, v ∈ ws ↔ v ∈ vs) →
      ∃ t, ws.foldlM apply (empty id) = .ok t ∧ t.Reflects (history vs) := by
    intro ws hws
    have haccepted : ∀ v ∈ ws, v.Accepted ∧ v.contractId = id := fun v hv => hvs v ((hws v).1 hv)
    obtain ⟨t, ht, hreplayed, hpruned⟩ := (replayed_empty id).foldlM haccepted nofun
    rw [List.nil_append] at hreplayed
    have hmem : ∀ x, x ∈ history ws ↔ x ∈ history vs := by
      intro x
      simp only [history, List.mem_flatMap, hws]
    exact ⟨t, ht, (hreplayed.of_mem_iff hmem).reflects hpruned hcoherent exists_encode_of_mem_history⟩
  obtain ⟨s, hs, hreflects⟩ := hrun vs fun v => Iff.rfl
  refine ⟨s, hs, hreflects, fun ws hws => ?_⟩
  obtain ⟨t, ht, hreflects'⟩ := hrun ws hws
  exact ⟨t, ht, hreflects', hreflects'.agree hreflects⟩

/-- A genesis grants two rights, and a consignment passes on the first of them, another one both. The
first right is spent after the former, and both are spent after both, whatever their order and number. -/
theorem apply_refines_spending_rights : ∃ (v w : ValidConsignment) (o p : Opout)
    (s t u : ContractState), v.Accepted ∧ w.Accepted ∧ w.contractId = v.contractId ∧
      (history [v, w]).Coherent ∧
      [v].foldlM apply (empty v.contractId) = .ok s ∧ s.isSpent o = true ∧
        p ∈ s.unspent .declarative ∧
      [v, w].foldlM apply (empty v.contractId) = .ok t ∧ t.isSpent o = true ∧ t.isSpent p = true ∧
      [w, v, w].foldlM apply (empty v.contractId) = .ok u ∧ u.isSpent o = true ∧
        u.isSpent p = true ∧ u.unspent .declarative = t.unspent .declarative := by
  obtain ⟨schemaId, genesis, first, second, bundle, hnodup, -, hfirst, hsecond, -, haccepted⟩ :=
    Consignment.exists_accepted_handing
  let x : Consignment.View genesis first second := .ofFirst hfirst
  let y : Consignment.View genesis first second := .ofSecond hsecond
  obtain ⟨v, hv, hvconsignment, hvid⟩ := haccepted [] x (Nat.le_of_ble_eq_true rfl)
  obtain ⟨w, hw, hwconsignment, hwid⟩ := haccepted [x] y (Nat.le_of_ble_eq_true rfl)
  let grant : OpId × Operation := (genesis, .genesis (Consignment.granting schemaId))
  let spend : OpId × Operation := (first, .transition (Consignment.passing genesis 0 x.secret))
  let spend' : OpId × Operation := (second, .transition (Consignment.passing genesis 1 y.secret))
  have hone : history [v] = [grant, spend] := history_handing hv hvconsignment hvid
  have hboth : history ([v] ++ [w]) = history [v] ++ history [w] := List.flatMap_append
  rw [hone, history_handing hw hwconsignment hwid] at hboth
  have hboth : history [v, w] = [grant, spend, grant, spend, spend'] := hboth
  -- all operations are among three with different ids
  have hcoherent : (history [v]).Coherent :=
    History.Coherent.of_nodup (show ([grant, spend, spend'].map Prod.fst).Nodup from hnodup)
      (by simp [hone])
  have hcoherent' : (history [v, w]).Coherent :=
    History.Coherent.of_nodup (show ([grant, spend, spend'].map Prod.fst).Nodup from hnodup)
      (by simp [hboth])
  have hwid' : w.contractId = v.contractId := hwid.trans hvid.symm
  obtain ⟨s, hs, hreflects, -⟩ :=
    apply_refines_spending (List.forall_mem_singleton.2 ⟨hv, rfl⟩) hcoherent
  obtain ⟨t, ht, hreflects', hsame⟩ := apply_refines_spending
    (List.forall_mem_cons.2 ⟨⟨hv, rfl⟩, List.forall_mem_singleton.2 ⟨hw, hwid'⟩⟩) hcoherent'
  obtain ⟨u, hu, -, hunspent, -, hspent⟩ := hsame [w, v, w] (by simp)
  let o : Opout := ⟨genesis, 0, 0⟩
  let p : Opout := ⟨genesis, 0, 1⟩
  have hspends : s.isSpent o = true :=
    (hreflects.isSpent o).2 ⟨spend, by simp [hone], List.mem_singleton_self _⟩
  have hgranted : p ∈ s.unspent .declarative := by
    refine (hreflects.unspent _ _).2 ⟨⟨.null, grant, by simp [hone], rfl, Consignment.zeroSeal, rfl⟩, ?_⟩
    simp [History.Spends, hone, grant, spend, Operation.inputs, Consignment.passing, p]
  have hspends' : t.isSpent o = true ∧ t.isSpent p = true :=
    ⟨(hreflects'.isSpent o).2 ⟨spend, by simp [hboth], List.mem_singleton_self _⟩,
      (hreflects'.isSpent p).2 ⟨spend', by simp [hboth], List.mem_singleton_self _⟩⟩
  exact ⟨v, w, o, p, s, t, u, hv, hw, hwid', hcoherent', hs, hspends, hgranted, ht, hspends'.1,
    hspends'.2, hu, (hspent o).trans hspends'.1, (hspent p).trans hspends'.2, hunspent _⟩

end ContractState

end StrictContract
