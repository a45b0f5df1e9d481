import StrictContract.Proofs.Contract.Boards

/-! # Locating — what concealed seals and transaction outputs own

A recipient asks a state what the seals of a terminal own, and what a transaction output owns. What is
concealed is remembered for good, so the seals that an accepted consignment hands over are **found**.
Transaction outputs are kept twice. One index holds every binding that was ever **disclosed**, the other
one output for each unspent assignment, which is the **last** disclosure of it. A seal that names no
transaction is bound anew whenever its transition arrives under another witness, so the two indices agree
exactly while no unspent assignment has been bound to two transaction outputs. -/

namespace StrictContract

open Codec

/-! ## Terminals -/

/-- A seal that a bundle conceals is that of a confidential assignment at a place of a known
transition. -/
theorem Bundle.Conceals.exists_slot {b : Bundle} {secret : SecretSeal} (h : b.Conceals secret) :
    ∃ e ∈ b.known.entries, ∃ o : Opout, o.op = e.1 ∧
      ∃ kind state, e.2.state.slot? o = some (kind, .confidential secret state) := by
  obtain ⟨e, he, a, ha, state, hitem⟩ := h
  obtain ⟨⟨type, a⟩, htype, rfl⟩ := List.mem_map.1 ha
  obtain ⟨i, hi⟩ := List.mem_iff_getElem?.1 hitem
  exact ⟨e, he, ⟨e.1, type, i⟩, rfl, a.kind, state,
    OperationState.slot?_eq_some.2 ⟨a, Table.mem_entries.1 htype, rfl, i, rfl, hi⟩⟩

namespace ContractState

open ValidConsignment

variable {s : ContractState}

/-- What seals own is what is kept under one of them. -/
theorem mem_ownedByTerminals {secrets : List SecretSeal} {o : Opout} :
    o ∈ s.ownedByTerminals secrets ↔ ∃ secret ∈ secrets, (secret, o) ∈ s.concealed := by
  simp only [ownedByTerminals, mem_distinct, List.mem_map, List.mem_filter, List.contains_iff_mem]
  constructor
  · rintro ⟨⟨secret, o⟩, ⟨hmem, hsecret⟩, rfl⟩
    exact ⟨secret, hsecret, hmem⟩
  · rintro ⟨secret, hsecret, hmem⟩
    exact ⟨(secret, o), ⟨hmem, hsecret⟩, rfl⟩

/-- A known transition of an accepted consignment is an operation of it, under its own id. -/
theorem mem_identified {v : ValidConsignment} (hv : v.Accepted) {w : WitnessBundle}
    (hw : w ∈ v.consignment.bundles) {e : OpId × Transition} (he : e ∈ w.bundle.known.entries) :
    (e.1, .transition e.2) ∈ v.consignment.identified := by
  rw [hv.identified_eq]
  refine List.mem_cons_of_mem _ (List.mem_flatMap.2 ⟨w, hw, ?_⟩)
  exact List.mem_map.2 ⟨e, Table.mem_sorted.2 he, rfl⟩

/-- **Terminals are found.** The state of an accepted consignment, and every state that accepted
consignments of the contract lead to from there, knows for every seal of a terminal an assignment that
is confidential with this seal, at a place of a known transition in a carried bundle with the id of the
terminal. -/
theorem terminals_found {v : ValidConsignment} {vs : List ValidConsignment} (hv : v.Accepted)
    (hvs : ∀ w ∈ vs, w.Accepted ∧ w.contractId = v.contractId) :
    ∃ s t, ofConsignment v = .ok s ∧ vs.foldlM apply s = .ok t ∧
      ∀ e ∈ v.consignment.terminals.entries, ∀ secret ∈ e.2,
        ∃ o ∈ t.ownedByTerminals [secret],
          ∃ w ∈ v.consignment.bundles, w.bundle.bundleId = .ok e.1 ∧
            ∃ tr, (o.op, tr) ∈ w.bundle.known.entries ∧ tr.opId = .ok o.op ∧
              ∃ kind state, tr.state.slot? o = some (kind, .confidential secret state) := by
  have hall : ∀ w ∈ v :: vs, w.Accepted ∧ w.contractId = v.contractId :=
    List.forall_mem_cons.2 ⟨⟨hv, rfl⟩, hvs⟩
  obtain ⟨t, ht, hreplayed, -⟩ := (replayed_empty v.contractId).foldlM hall nofun
  rw [List.foldlM_cons] at ht
  obtain ⟨s, hs, ht⟩ := bind_eq_ok.1 ht
  refine ⟨s, t, hs, ht, fun e he secret hsecret => ?_⟩
  -- acceptance leads from the terminal to a known transition with the seal
  obtain ⟨w, hlast, hconceals⟩ := hv.consistent.terminals e he
  obtain ⟨⟨opId, tr⟩, hknown, o, rfl, hslot⟩ := (hconceals secret hsecret).exists_slot
  have hcarried : tr.opId = .ok o.op := (hv.consistent.links w hlast.mem _ hknown).carried
  refine ⟨o, mem_ownedByTerminals.2 ⟨secret, List.mem_singleton_self _, ?_⟩, w, hlast.mem, hlast.1, tr,
    hknown, hcarried, hslot⟩
  -- the transition is replayed under the id it is carried under, which its place names
  have hmem : (o.op, Operation.transition tr) ∈ history (v :: vs) :=
    List.mem_flatMap.2 ⟨v, List.mem_cons_self .., mem_identified hv hlast.mem hknown⟩
  rw [List.nil_append] at hreplayed
  exact (hreplayed.concealed secret o).2 ⟨_, hmem, rfl, hslot⟩

/-- A consignment of two views that hands over the seal of the second one is applied twice: the seal is
found. -/
theorem terminals_found_handing :
    ∃ (secret : SecretSeal) (v : ValidConsignment) (s t : ContractState), v.Accepted ∧
      ofConsignment v = .ok s ∧ [v].foldlM apply s = .ok t ∧ ∃ o, o ∈ t.ownedByTerminals [secret] := by
  let secret : SecretSeal := Consignment.zeroId .secretSeal
  obtain ⟨schemaId, _, _, _, bundle, x, y, -, -, -, -, hconsistent, -⟩ :=
    Consignment.exists_consistent_views secret secret
  obtain ⟨v, hv, hidentifies⟩ := hconsistent.exists_accepted
  obtain ⟨s, t, hs, ht, hfound⟩ := terminals_found hv (List.forall_mem_singleton.2 ⟨hv, rfl⟩)
  rw [hidentifies.consignment] at hfound
  obtain ⟨o, ho, -⟩ := hfound (bundle, [secret]) (List.mem_singleton_self _) secret
    (List.mem_singleton_self _)
  exact ⟨secret, v, s, t, hv, hs, ht, o, ho⟩

/-! ## Transaction outputs -/

end ContractState

/-- The transaction output that a seal is defined over, if it names the transaction. -/
def Seal.outpoint? (s : Seal) : Option Outpoint :=
  s.transaction.map fun transaction => ⟨transaction, s.vout⟩

namespace Outpoint

/-- An outpoint with a number is the same as those with this number in the same transaction. -/
theorem same_iff {p q : Outpoint} {n : Int} (hp : p.vout.number? = some n) :
    p.same q = true ↔ p.transaction = q.transaction ∧ q.vout.number? = some n := by
  rw [same, Bool.and_eq_true, beq_iff_eq, Value.same_iff_of_number? hp]

end Outpoint

namespace ContractState

/-- A seal where an operation stands: if it names no transaction, it is bound to the witness. -/
def Origin.bound (og : Origin) (definition : Seal) : Seal :=
  og.witness.elim definition definition.withWitness

@[simp] theorem Origin.vout_bound (og : Origin) (definition : Seal) :
    (og.bound definition).vout = definition.vout := by
  obtain ⟨opId, _ | txid, bundleId⟩ := og
  · rfl
  · obtain ⟨_ | transaction, vout, blinding⟩ := definition <;> rfl

/-- A seal that names its transaction is bound to it, and every seal is with a witness. -/
theorem Origin.exists_transaction (og : Origin) {definition : Seal}
    (hnamed : og.witness = none → definition.transaction ≠ none) :
    ∃ transaction, (og.bound definition).transaction = some transaction := by
  obtain ⟨opId, _ | txid, bundleId⟩ := og
  · exact Option.ne_none_iff_exists'.1 (hnamed rfl)
  · obtain ⟨_ | transaction, vout, blinding⟩ := definition <;> exact ⟨_, rfl⟩

/-- The output at a place, if a revealed assignment is there. -/
def Origin.output? (og : Origin) (o : Opout) (kind : StateKind) : Assignment → Option Output
  | .revealed definition state =>
    some ⟨o, og.bound definition, state, kind, og.witness, og.bundleId⟩
  | .confidential .. => none

/-- What an entry of a chronicle **discloses** of a place: the output there, if it reveals one. -/
def disclosed? (x : Origin × Operation) (o : Opout) : Option Output :=
  if x.1.opId = o.op then (x.2.state.slot? o).bind fun y => x.1.output? o y.1 y.2 else none

theorem disclosed?_eq_some {x : Origin × Operation} {o : Opout} {out : Output} :
    disclosed? x o = some out ↔
      ∃ kind a, (o, kind, a) ∈ x.2.state.slots x.1.opId ∧ x.1.output? o kind a = some out := by
  simp only [OperationState.mem_slots, disclosed?]
  split
  · rename_i hop
    simp [hop, Option.bind_eq_some_iff]
  · rename_i hop
    simp [Ne.symm hop]

/-- What is disclosed of a place names the place. -/
theorem opout_of_disclosed? {x : Origin × Operation} {o : Opout} {out : Output}
    (hout : disclosed? x o = some out) : out.opout = o := by
  obtain ⟨kind, a, -, hout⟩ := disclosed?_eq_some.1 hout
  cases a <;> cases hout
  rfl

end ContractState

namespace Chronicle

open ContractState

variable (h : Chronicle)

/-- A chronicle **binds** a place to a transaction output when some entry discloses an output of the place
that is there. -/
def Binds (o : Opout) (p : Outpoint) : Prop :=
  ∃ x ∈ h, ∃ out, disclosed? x o = some out ∧ out.definition.outpoint? = some p

/-- The **last** output that a chronicle discloses of a place. -/
def last? (o : Opout) : Option Output := h.reverse.findSome? (disclosed? · o)

/-- What is disclosed last is disclosed. -/
theorem exists_of_last? {h : Chronicle} {o : Opout} {out : Output} (hout : h.last? o = some out) :
    ∃ x ∈ h, disclosed? x o = some out := by
  obtain ⟨x, hx, hout⟩ := List.exists_of_findSome?_eq_some hout
  exact ⟨x, List.mem_reverse.1 hx, hout⟩

/-- A chronicle binds a place to the transaction output where it discloses the place last. -/
theorem binds_of_last? {h : Chronicle} {o : Opout} {out : Output} {p : Outpoint}
    (hout : h.last? o = some out) (hp : out.definition.outpoint? = some p) : h.Binds o p := by
  obtain ⟨x, hx, hout⟩ := exists_of_last? hout
  exact ⟨x, hx, out, hout, hp⟩

/-- One more entry may disclose the place again. -/
theorem last?_append_singleton (x : Origin × Operation) (o : Opout) :
    Chronicle.last? (h ++ [x]) o = (disclosed? x o).or (h.last? o) := by
  rw [last?, List.reverse_append, List.reverse_singleton, List.singleton_append, List.findSome?_cons]
  cases disclosed? x o <;> rfl

end Chronicle

namespace ContractState

open ValidConsignment

variable {s : ContractState} {h : Chronicle}

/-- A place is not spent exactly if it is not among the spent places. -/
theorem isSpent_eq_false {o : Opout} : s.isSpent o = false ↔ o ∉ s.spent := by
  rw [isSpent, ← Bool.not_eq_true, List.contains_iff_mem]

/-! ### Adding assignments -/

/-- What one assignment adds to the transaction outputs. -/
theorem mem_located_addAssignment {og : Origin} {kind : StateKind} {s : ContractState} {o o' : Opout}
    {a : Assignment} {p : Outpoint} : (p, o) ∈ (addAssignment og kind s o' a).located ↔
      (p, o) ∈ s.located ∨ o' = o ∧
        ∃ out, og.output? o' kind a = some out ∧ out.definition.outpoint? = some p := by
  unfold addAssignment
  cases a with
  | confidential secret state =>
    simp only [Origin.output?, reduceCtorEq, false_and, exists_false, and_false, or_false]
    split <;> rfl
  | revealed definition state =>
    have hbound : og.witness.elim definition definition.withWitness = og.bound definition := rfl
    simp only [hbound, Origin.output?, Option.some.injEq, exists_eq_left', Seal.outpoint?]
    cases (og.bound definition).transaction with
    | none => simp
    | some transaction => simp [and_comm, eq_comm]

/-- Which output one assignment leaves at an unspent place. -/
theorem get?_addAssignment {og : Origin} {kind : StateKind} {s : ContractState} {o o' : Opout}
    {a : Assignment} (ho : o ∉ s.spent) : (addAssignment og kind s o' a).outputs.get? o =
      (if o' = o then og.output? o' kind a else none).or (s.outputs.get? o) := by
  unfold addAssignment
  cases a with
  | confidential secret state =>
    simp only [Origin.output?, ite_self, Option.none_or]
    split <;> rfl
  | revealed definition state =>
    show Table.get? (if s.spent.contains o' then s.outputs else s.outputs.put o' _) o = _
    by_cases hplace : o' = o
    · subst hplace
      rw [if_neg (mt List.contains_iff_mem.1 ho), Table.get?_put, if_pos rfl, if_pos rfl]
      rfl
    · rw [if_neg hplace, Option.none_or]
      split
      · rfl
      · rw [Table.get?_put, if_neg (Ne.symm hplace)]

/-- What assignments add to the transaction outputs. -/
theorem mem_located_addAssignments {og : Origin} {slots : List (Opout × StateKind × Assignment)}
    {s : ContractState} {o : Opout} {p : Outpoint} : (p, o) ∈ (s.addAssignments og slots).located ↔
      (p, o) ∈ s.located ∨ ∃ kind a, (o, kind, a) ∈ slots ∧
        ∃ out, og.output? o kind a = some out ∧ out.definition.outpoint? = some p := by
  induction slots generalizing s with
  | nil => simp [addAssignments]
  | cons y slots ih =>
    obtain ⟨o', kind, a⟩ := y
    rw [show s.addAssignments og ((o', kind, a) :: slots) =
      (addAssignment og kind s o' a).addAssignments og slots from rfl, ih, mem_located_addAssignment,
      or_assoc]
    refine or_congr_right ?_
    simp only [List.mem_cons, Prod.mk.injEq, or_and_right, exists_or]
    refine or_congr_left ?_
    constructor
    · rintro ⟨rfl, hout⟩
      exact ⟨kind, a, ⟨rfl, rfl, rfl⟩, hout⟩
    · rintro ⟨_, _, ⟨rfl, rfl, rfl⟩, hout⟩
      exact ⟨rfl, hout⟩

/-- Which output assignments leave at an unspent place: that of the last assignment to it. -/
theorem get?_addAssignments {og : Origin} {slots : List (Opout × StateKind × Assignment)}
    {s : ContractState} {o : Opout} (ho : o ∉ s.spent) :
    (s.addAssignments og slots).outputs.get? o = (slots.reverse.findSome? fun y =>
      if y.1 = o then og.output? y.1 y.2.1 y.2.2 else none).or (s.outputs.get? o) := by
  induction slots generalizing s with
  | nil => rfl
  | cons y slots ih =>
    have hspent : o ∉ (addAssignment og y.2.1 s y.1 y.2.2).spent := by
      rwa [(addAssignment_keeps ..).2.2]
    rw [show s.addAssignments og (y :: slots) =
      (addAssignment og y.2.1 s y.1 y.2.2).addAssignments og slots from rfl, ih hspent,
      get?_addAssignment ho, List.reverse_cons, List.findSome?_append, List.findSome?_singleton,
      Option.or_assoc]

/-- Among the assignments of an operation, those at one place are the same. -/
theorem findSome?_slots (x : Origin × Operation) (o : Opout) :
    ((x.2.state.slots x.1.opId).reverse.findSome? fun y =>
      if y.1 = o then x.1.output? y.1 y.2.1 y.2.2 else none) = disclosed? x o := by
  have hplace : ∀ out, ((x.2.state.slots x.1.opId).reverse.findSome? fun y =>
      if y.1 = o then x.1.output? y.1 y.2.1 y.2.2 else none) = some out → disclosed? x o = some out := by
    intro out hfound
    obtain ⟨y, hy, hout⟩ := List.exists_of_findSome?_eq_some hfound
    split at hout
    · rename_i ho
      exact disclosed?_eq_some.2 ⟨_, _, ho ▸ List.mem_reverse.1 hy, ho ▸ hout⟩
    · cases hout
  refine Option.ext fun out => ⟨hplace out, fun hout => ?_⟩
  obtain ⟨kind, a, hmem, hout'⟩ := disclosed?_eq_some.1 hout
  have hsome : ((x.2.state.slots x.1.opId).reverse.findSome? fun y =>
      if y.1 = o then x.1.output? y.1 y.2.1 y.2.2 else none).isSome = true :=
    List.findSome?_isSome_iff.2 ⟨_, List.mem_reverse.2 hmem, by rw [if_pos rfl, hout']; rfl⟩
  -- whatever is found first is disclosed at the place, and that is one output
  obtain ⟨out', hfound⟩ := Option.isSome_iff_exists.1 hsome
  rw [hfound, ← hplace out' hfound, hout]

/-! ### The two indices -/

/-- A state **locates** what a chronicle discloses: it knows every binding, and for a place that is not
spent the last output. -/
structure Locates (s : ContractState) (h : Chronicle) : Prop where
  located : ∀ p o, (p, o) ∈ s.located ↔ h.Binds o p
  output : ∀ o, o ∉ s.spent → s.outputs.get? o = h.last? o

theorem locates_empty (id : ContractId) : (empty id).Locates [] where
  located := by simp [empty, Chronicle.Binds]
  output := fun _ _ => rfl

namespace Locates

/-- One more entry is located. -/
theorem perform (hs : s.Locates h) (x : Origin × Operation) :
    (s.perform x).Locates (h ++ [x]) where
  located := by
    intro p o
    rw [perform_eq, addOperation_eq, mem_located_addAssignments, located_addGlobals,
      (paid_keeps ..).2.2.1, hs.located]
    simp only [Chronicle.Binds, List.mem_append, List.mem_singleton, or_and_right, exists_or,
      exists_eq_left, disclosed?_eq_some]
    refine or_congr_right ⟨?_, ?_⟩
    · rintro ⟨kind, a, hmem, out, hout, hp⟩
      exact ⟨out, ⟨kind, a, hmem, hout⟩, hp⟩
    · rintro ⟨out, ⟨kind, a, hmem, hout⟩, hp⟩
      exact ⟨kind, a, hmem, out, hout, hp⟩
  output := by
    intro o ho
    rw [mem_spent_perform, not_or] at ho
    have hspent : o ∉ ((s.paid x.2).addGlobals x.1 x.2.state).spent := by
      rw [spent_addGlobals, mem_spent_paid]
      exact not_or.2 ho
    rw [perform_eq, addOperation_eq, get?_addAssignments hspent, findSome?_slots, outputs_addGlobals,
      (paid_keeps ..).2.2.2, hs.output o ho.1, Chronicle.last?_append_singleton]

/-- A chronicle is located entry by entry. -/
theorem foldl_perform (hs : s.Locates h) (entries : Chronicle) :
    (entries.foldl ContractState.perform s).Locates (h ++ entries) := by
  induction entries generalizing h s with
  | nil => rwa [List.append_nil]
  | cons x entries ih =>
    rw [List.foldl_cons, List.append_cons]
    exact ih (hs.perform x)

/-- What an accepted consignment tells is located. -/
theorem replay (hs : s.Locates h) (v : ValidConsignment) : (s.replay v).Locates (h ++ v.told) := by
  have hlimited : (s.limited v.consignment.schema).Locates h := by
    refine ⟨fun p o => ?_, fun o ho => ?_⟩
    · rw [located_limited, hs.located]
    · rw [spent_limited] at ho
      rw [outputs_limited, hs.output o ho]
  have hperformed := hlimited.foldl_perform v.told
  refine ⟨hperformed.located, fun o ho => ?_⟩
  -- only what is spent is dropped
  have hkept : o ∉ (v.told.foldl ContractState.perform (s.limited v.consignment.schema)).spent := ho
  rw [ContractState.replay, prune, Table.get?_foldl_erase, if_neg hkept]
  exact hperformed.output o hkept

/-- A run of accepted consignments is located. -/
theorem foldl_replay (hs : s.Locates h) (vs : List ValidConsignment) :
    (vs.foldl ContractState.replay s).Locates (h ++ chronicle vs) := by
  induction vs generalizing h s with
  | nil => rwa [chronicle, List.flatMap_nil, List.append_nil]
  | cons v vs ih =>
    rw [List.foldl_cons, chronicle, List.flatMap_cons, ← List.append_assoc]
    exact ih (hs.replay v)

end Locates

end ContractState

/-! ### Seals of accepted consignments -/

/-- The seal of an assignment that is read is read. -/
theorem Assignment.readable_seal {kind : StateKind} {definition : Seal} {state : Value}
    (h : (codec kind).Readable (revealed definition state).toValue) :
    Seal.codec.Readable definition.toValue := by
  obtain ⟨x, hx, hreadable⟩ := (readable_union (recordVariants kind)).1 h
  simp only [variants, codec, List.mem_cons, List.not_mem_nil, or_false] at hx
  rcases hx with rfl | rfl
  · obtain ⟨_, -, hrecord⟩ := readable_record.1 hreadable
    exact absurd (Value.record.inj hrecord).1 (by decide)
  · obtain ⟨v, hv, hread⟩ := exists_readable_field (f := ("seal", Seal.codec)) hreadable (by simp)
    obtain rfl : v = definition.toValue := by simpa using hv
    exact hread

/-- The output of a seal of an encodable operation has a number. -/
theorem Operation.exists_vout {x : Operation} {p : Octets} (h : x.encode = .ok p) {o : Opout}
    {kind : StateKind} {definition : Seal} {state : Value}
    (hslot : x.state.slot? o = some (kind, .revealed definition state)) :
    ∃ n : Nat, definition.vout.number? = some (n : Int) := by
  obtain ⟨y, halike, hreadable⟩ := exists_readable h
  obtain ⟨z, hz, hrevealed⟩ := OperationState.exists_slot?_of_alike (alike_assignments halike) hslot
  obtain ⟨definition', state', rfl, -⟩ := Assignment.eq_revealed_of_alike hrevealed
  obtain ⟨-, -, hseal, -⟩ := (Value.Alike.record_iff (by decide)).1 hrevealed
  obtain ⟨-, -, -, -, hvout, -⟩ := (Value.Alike.record_iff (by decide)).1 hseal
  -- the seal is alike to one that is read, of which the number is an integer
  obtain ⟨v, hv, hread⟩ := exists_readable_field (f := ("vout", .uint 4))
    (Assignment.readable_seal (OperationState.readable_slot hreadable hz)) (by simp)
  obtain rfl : v = definition'.vout := by simpa using hv
  obtain ⟨n, hn⟩ := reads_uint 4 _ hread
  rw [← hn] at hvout
  exact ⟨n, hvout.symm.number_left rfl⟩

namespace ValidConsignment

open ContractState

/-- The revealed seals of a genesis that is accepted name their transactions. -/
theorem Accepted.transaction_ne_none {v : ValidConsignment} (hv : v.Accepted) {o : Opout}
    {kind : StateKind} {definition : Seal} {state : Value}
    (hslot : v.consignment.genesis.state.slot? o = some (kind, .revealed definition state)) :
    definition.transaction ≠ none := by
  obtain ⟨a, ha, -, i, -, hi⟩ := OperationState.slot?_eq_some.1 hslot
  have hconforms : (Operation.genesis v.consignment.genesis).Conforms v.consignment.schema
      v.consignment.types v.consignment.schema.genesis :=
    Operation.passes_validate_iff.1 (hv.consistent.genesis "")
  obtain ⟨d, -, -, -, hfits⟩ := hconforms.assignments _ (Table.mem_entries.2 ha)
  exact (hfits _ (List.mem_of_getElem? hi)).1 rfl _ _ rfl

/-- The operations that an accepted consignment tells can be encoded. -/
theorem Accepted.exists_encode {v : ValidConsignment} (hv : v.Accepted) {x : Origin × Operation}
    (hx : x ∈ v.told) : ∃ p, x.2.encode = .ok p := by
  have hmem : (x.1.opId, x.2) ∈ history [v] := by
    rw [history, List.flatMap_singleton]
    exact hv.mem_identified hx
  exact exists_encode_of_mem_history _ hmem

/-- Everything that an accepted consignment discloses is at a transaction output with a number. -/
theorem Accepted.exists_outpoint {v : ValidConsignment} (hv : v.Accepted) {x : Origin × Operation}
    (hx : x ∈ v.told) {o : Opout} {out : Output} (hout : disclosed? x o = some out) :
    ∃ p, out.definition.outpoint? = some p ∧ ∃ n, p.vout.number? = some n := by
  obtain ⟨kind, a, hmem, hout⟩ := disclosed?_eq_some.1 hout
  obtain ⟨-, hslot⟩ := OperationState.mem_slots.1 hmem
  cases a with
  | confidential secret state => cases hout
  | revealed definition state =>
    cases hout
    obtain ⟨p, hp⟩ := hv.exists_encode hx
    obtain ⟨n, hn⟩ := Operation.exists_vout hp hslot
    -- a transition has a witness to bind the seal to, and a genesis needs none
    have hnamed : x.1.witness = none → definition.transaction ≠ none := by
      intro hnone
      rcases genesis_or_transition hx with hgenesis | ⟨-, txid, -, hwitness⟩
      · rw [hgenesis] at hslot
        exact hv.transaction_ne_none hslot
      · rw [hnone] at hwitness
        cases hwitness
    obtain ⟨transaction, htransaction⟩ := x.1.exists_transaction hnamed
    refine ⟨_, by rw [Seal.outpoint?, htransaction]; rfl, n, ?_⟩
    rw [Origin.vout_bound, hn]

/-- Everything in the chronicle of accepted consignments is bound to a number. -/
theorem exists_number_of_binds {vs : List ValidConsignment} (hvs : ∀ v ∈ vs, v.Accepted) {o : Opout}
    {p : Outpoint} (hp : (chronicle vs).Binds o p) : ∃ n, p.vout.number? = some n := by
  obtain ⟨x, hx, out, hout, hp⟩ := hp
  obtain ⟨v, hv, hx⟩ := List.mem_flatMap.1 hx
  obtain ⟨q, hq, hn⟩ := (hvs v hv).exists_outpoint hx hout
  rw [hp] at hq
  cases hq
  exact hn

/-- What is bound somewhere is bound where it is disclosed last. -/
theorem exists_last?_of_binds {vs : List ValidConsignment} (hvs : ∀ v ∈ vs, v.Accepted) {o : Opout}
    {p : Outpoint} (hp : (chronicle vs).Binds o p) :
    ∃ out q, (chronicle vs).last? o = some out ∧ out.definition.outpoint? = some q := by
  obtain ⟨x, hx, out, hout, -⟩ := hp
  have hsome : ((chronicle vs).last? o).isSome = true :=
    List.findSome?_isSome_iff.2 ⟨x, List.mem_reverse.2 hx, by rw [hout]; rfl⟩
  obtain ⟨out', hlast⟩ := Option.isSome_iff_exists.1 hsome
  obtain ⟨y, hy, hout'⟩ := Chronicle.exists_of_last? hlast
  obtain ⟨v, hv, hy⟩ := List.mem_flatMap.1 hy
  obtain ⟨q, hq, -⟩ := (hvs v hv).exists_outpoint hy hout'
  exact ⟨out', q, hlast, hq⟩

end ValidConsignment

namespace ContractState

open ValidConsignment

variable {s : ContractState} {h : Chronicle}

/-! ### Agreement -/

/-- The places of unspent assignments that a transaction output owns, of all kinds. -/
def ownedAt (s : ContractState) (p : Outpoint) : List Opout :=
  StateKind.all.flatMap fun kind => (s.select kind (some p) none).map Output.opout

/-- What is selected at a transaction output are the outputs that are there. -/
theorem mem_select_at {kind : StateKind} {p : Outpoint} {out : Output} :
    out ∈ s.select kind (some p) none ↔ (∃ o, s.outputs.get? o = some out) ∧ out.kind = kind ∧
      ∃ q, out.definition.outpoint? = some q ∧ q.same p = true := by
  simp only [select, List.mem_filter, List.mem_map, Table.mem_sorted, Prod.exists, exists_eq_right,
    Table.mem_entries, Bool.and_eq_true, beq_iff_eq, Option.all_none, Option.all_some, and_true]
  refine and_congr_right fun _ => and_congr_right fun _ => ?_
  unfold Seal.outpoint?
  cases out.definition.transaction <;> simp

/-- What a transaction output owns is what is kept under it. -/
theorem mem_ownedByOutpoints {p : Outpoint} {o : Opout} :
    o ∈ s.ownedByOutpoints [p] ↔ ∃ q, (q, o) ∈ s.located ∧ q.same p = true := by
  simp [ownedByOutpoints, mem_distinct]

namespace Locates

/-- A transaction output owns what is bound to it. -/
theorem mem_ownedByOutpoints (hs : s.Locates h) {p : Outpoint} {o : Opout} :
    o ∈ s.ownedByOutpoints [p] ↔ ∃ q, h.Binds o q ∧ q.same p = true := by
  simp only [ContractState.mem_ownedByOutpoints, hs.located]

/-- In a pruned state, an output is kept at the place that it names, where it was disclosed last. -/
theorem last?_of_get? (hs : s.Locates h) (hpruned : s.Pruned) {o : Opout} {out : Output}
    (hout : s.outputs.get? o = some out) : out.opout = o ∧ h.last? o = some out := by
  have hlast : h.last? o = some out := (hs.output o (hpruned.not_mem_spent hout)).symm.trans hout
  obtain ⟨x, -, hdisclosed⟩ := Chronicle.exists_of_last? hlast
  exact ⟨opout_of_disclosed? hdisclosed, hlast⟩

/-- In a pruned state, the unspent places that are listed at a transaction output are those whose last
disclosure is there. -/
theorem mem_ownedAt (hs : s.Locates h) (hpruned : s.Pruned) {p : Outpoint} {o : Opout} :
    o ∈ s.ownedAt p ↔ o ∉ s.spent ∧ ∃ out q, h.last? o = some out ∧
      out.definition.outpoint? = some q ∧ q.same p = true := by
  have hkinds : ∀ kind, kind ∈ StateKind.all := by
    intro kind
    cases kind <;> decide
  simp only [ownedAt, List.mem_flatMap, List.mem_map, mem_select_at, hkinds, true_and]
  constructor
  · rintro ⟨kind, out, ⟨⟨k, hk⟩, -, q, hq, hsame⟩, rfl⟩
    obtain ⟨rfl, hlast⟩ := hs.last?_of_get? hpruned hk
    exact ⟨hpruned.not_mem_spent hk, out, q, hlast, hq, hsame⟩
  · rintro ⟨hspent, out, q, hlast, hq, hsame⟩
    obtain ⟨x, -, hout⟩ := Chronicle.exists_of_last? hlast
    exact ⟨out.kind, out, ⟨⟨o, (hs.output o hspent).trans hlast⟩, rfl, q, hq, hsame⟩,
      opout_of_disclosed? hout⟩

end Locates

/-- Accepted consignments of one contract can be applied, and the state that they lead to has replayed
them and locates what they disclose. -/
theorem exists_run {id : ContractId} {vs : List ValidConsignment}
    (hvs : ∀ v ∈ vs, v.Accepted ∧ v.contractId = id) :
    ∃ s, vs.foldlM apply (empty id) = .ok s ∧ Replayed id (history vs) s ∧ s.Pruned ∧
      s.Locates (chronicle vs) := by
  obtain ⟨s, hs, hreplayed, hpruned⟩ := (replayed_empty id).foldlM hvs nofun
  refine ⟨s, hs, hreplayed, hpruned, ?_⟩
  obtain rfl : s = vs.foldl replay (empty id) := Except.ok.inj (hs.symm.trans (foldlM_apply_eq hvs))
  exact (locates_empty id).foldl_replay vs

/-- **The two indices of transaction outputs.** After accepted consignments of one contract, a transaction
output owns the places that were ever bound to it, and lists the unspent places that were bound to it
last; so what it lists it owns. It lists all unspent places that it owns, for all transaction outputs,
exactly if no unspent place is owned by two of them. -/
theorem outpoints_agree_iff {id : ContractId} {vs : List ValidConsignment}
    (hvs : ∀ v ∈ vs, v.Accepted ∧ v.contractId = id) :
    ∃ s, vs.foldlM apply (empty id) = .ok s ∧
      (∀ p o, o ∈ s.ownedByOutpoints [p] ↔ ∃ q, (chronicle vs).Binds o q ∧ q.same p = true) ∧
      (∀ p o, o ∈ s.ownedAt p ↔ s.isSpent o = false ∧ ∃ out q, (chronicle vs).last? o = some out ∧
        out.definition.outpoint? = some q ∧ q.same p = true) ∧
      (∀ p, ∀ o ∈ s.ownedAt p, o ∈ s.ownedByOutpoints [p] ∧ s.isSpent o = false) ∧
      ((∀ p, ∀ o ∈ s.ownedByOutpoints [p], s.isSpent o = false → o ∈ s.ownedAt p) ↔
        ∀ o, s.isSpent o = false → ∀ p q, o ∈ s.ownedByOutpoints [p] → o ∈ s.ownedByOutpoints [q] →
          p.same q = true) := by
  obtain ⟨t, ht, -, hpruned⟩ := (replayed_empty id).foldlM hvs nofun
  have hlocates := (locates_empty id).foldl_replay vs
  obtain rfl : t = vs.foldl replay (empty id) := Except.ok.inj (ht.symm.trans (foldlM_apply_eq hvs))
  rw [List.nil_append] at hlocates
  have hlisted := fun p o => hlocates.mem_ownedAt (p := p) (o := o) hpruned
  have hnumber := fun o p => exists_number_of_binds (o := o) (p := p) fun v hv => (hvs v hv).1
  refine ⟨_, ht, fun p o => hlocates.mem_ownedByOutpoints, fun p o => ?_, fun p o ho => ?_, ?_⟩
  · rw [isSpent_eq_false]
    exact hlisted p o
  · obtain ⟨hunspent, out, q, hout, hq, hsame⟩ := (hlisted p o).1 ho
    exact ⟨hlocates.mem_ownedByOutpoints.2 ⟨q, Chronicle.binds_of_last? hout hq, hsame⟩,
      isSpent_eq_false.2 hunspent⟩
  constructor
  · intro hagree o hunspent p q hp hq
    -- both are where the place was disclosed last
    obtain ⟨-, out, r, hout, hr, hrp⟩ := (hlisted p o).1 (hagree p o hp hunspent)
    obtain ⟨-, out', r', hout', hr', hrq⟩ := (hlisted q o).1 (hagree q o hq hunspent)
    rw [hout] at hout'
    cases hout'
    rw [hr] at hr'
    cases hr'
    obtain ⟨n, hn⟩ := hnumber o r (Chronicle.binds_of_last? hout hr)
    obtain ⟨htransaction, hvout⟩ := (Outpoint.same_iff hn).1 hrp
    obtain ⟨htransaction', hvout'⟩ := (Outpoint.same_iff hn).1 hrq
    exact (Outpoint.same_iff hvout).2 ⟨htransaction.symm.trans htransaction', hvout'⟩
  · intro hone p o hp hunspent
    obtain ⟨q, hbinds, -⟩ := hlocates.mem_ownedByOutpoints.1 hp
    obtain ⟨out, r, hout, hr⟩ := exists_last?_of_binds (fun v hv => (hvs v hv).1) hbinds
    have hlast : (chronicle vs).Binds o r := Chronicle.binds_of_last? hout hr
    obtain ⟨n, hn⟩ := hnumber o r hlast
    have hrr : r.same r = true := (Outpoint.same_iff hn).2 ⟨rfl, hn⟩
    have hsame := hone o hunspent r p (hlocates.mem_ownedByOutpoints.2 ⟨r, hlast, hrr⟩) hp
    exact (hlisted p o).2 ⟨isSpent_eq_false.1 hunspent, out, r, hout, hr, hsame⟩

end ContractState

/-! ### Posts under two witnesses -/

/-- The place of the right that a post passes on. -/
def Consignment.Post.place {genesis : OpId} (a : Post genesis) : Opout := ⟨a.id, 0, 0⟩

namespace ContractState

open Consignment ValidConsignment

variable {schemaId : SchemaId} {genesis : OpId} {posts : List (Post genesis × Txid)}

/-- What a post discloses under a witness: the right at the first output of the witness. -/
theorem exists_disclosed?_post (a : Post genesis) (witness : Txid) :
    ∃ out, disclosed? (a.entry witness) a.place = some out ∧
      out.definition.outpoint? = some ⟨witness, .int 0⟩ :=
  ⟨_, if_pos rfl, rfl⟩

/-- The state after a board locates what the board tells, and has spent the rights that the posts pass
on. -/
theorem exists_state_board {v : ValidConsignment} (hv : v.Accepted)
    (hboard : v.consignment = board schemaId posts) (hid : v.contractId = genesis.cast .contract) :
    ∃ s, [v].foldlM apply (empty v.contractId) = .ok s ∧ s.Locates (boardTold schemaId posts) ∧
      s.Pruned ∧ ∀ o, o ∈ s.spent ↔ ∃ a ∈ posts, o = ⟨genesis, 0, a.1.index⟩ := by
  obtain ⟨s, hs, hreplayed, hpruned, hlocates⟩ := exists_run (List.forall_mem_singleton.2 ⟨hv, rfl⟩)
  have htold := told_board hboard hid
  rw [chronicle, List.flatMap_singleton, htold] at hlocates
  refine ⟨s, hs, hlocates, hpruned, fun o => ?_⟩
  rw [hreplayed.spent, history, List.flatMap_singleton, ← hv.history_told, htold]
  simp [History.Spends, Chronicle.history, boardTold, Post.entry, Operation.inputs, posting, passing]

/-- A post under two witnesses, one after the other: the output of the first witness owns the right,
which is not spent, but does not list it. -/
theorem outpoints_disagree :
    ∃ (v : ValidConsignment) (s : ContractState) (p : Outpoint) (o : Opout), v.Accepted ∧
      [v].foldlM apply (empty v.contractId) = .ok s ∧ o ∈ s.ownedByOutpoints [p] ∧
        s.isSpent o = false ∧ ∀ kind, o ∉ (s.select kind (some p) none).map Output.opout := by
  have hne : uniformTxid 34 ≠ uniformTxid 17 := by decide
  obtain ⟨schemaId, genesis, _, a, -, hindex, hboards⟩ := exists_boards
  obtain ⟨v, hv, hboard, hid⟩ :=
    hboards [(a, uniformTxid 17), (a, uniformTxid 34)] (Nat.le_of_ble_eq_true rfl)
  obtain ⟨s, hs, hlocates, hpruned, hspent⟩ := exists_state_board hv hboard hid
  have hunspent : a.place ∉ s.spent := by
    rw [hspent]
    simp [Post.place, hindex]
  refine ⟨v, s, ⟨uniformTxid 17, .int 0⟩, a.place, hv, hs, ?_, ?_, fun kind hlisted => ?_⟩
  · obtain ⟨out, hout, hp⟩ := exists_disclosed?_post a (uniformTxid 17)
    refine hlocates.mem_ownedByOutpoints.2
      ⟨_, ⟨_, ?_, out, hout, hp⟩, (Outpoint.same_iff rfl).2 ⟨rfl, rfl⟩⟩
    exact List.mem_cons_of_mem _ (List.mem_cons_self ..)
  · exact isSpent_eq_false.2 hunspent
  · have howned : a.place ∈ s.ownedAt ⟨uniformTxid 17, .int 0⟩ :=
      List.mem_flatMap.2 ⟨kind, by cases kind <;> decide, hlisted⟩
    obtain ⟨-, out, q, hlast, hq, hsame⟩ := (hlocates.mem_ownedAt hpruned).1 howned
    -- the last disclosure is the one under the second witness
    obtain ⟨out', hout', hq'⟩ := exists_disclosed?_post a (uniformTxid 34)
    have hsecond := Chronicle.last?_append_singleton
      (boardTold schemaId [(a, uniformTxid 17)]) (a.entry (uniformTxid 34)) a.place
    rw [hout'] at hsecond
    cases hlast.symm.trans hsecond
    cases hq.symm.trans hq'
    exact hne ((Outpoint.same_iff rfl).1 hsame).1

/-- A post under one witness: the output of the witness lists the right. -/
theorem outpoints_agree_iff_posted :
    ∃ (v : ValidConsignment) (s : ContractState) (p : Outpoint) (o : Opout), v.Accepted ∧
      [v].foldlM apply (empty v.contractId) = .ok s ∧ o ∈ s.ownedAt p := by
  obtain ⟨schemaId, genesis, _, a, -, hindex, hboards⟩ := exists_boards
  obtain ⟨v, hv, hboard, hid⟩ := hboards [(a, uniformTxid 17)] (Nat.le_of_ble_eq_true rfl)
  obtain ⟨s, hs, -, -, hspent⟩ := exists_state_board hv hboard hid
  obtain ⟨t, ht, -, hlisted, -⟩ := outpoints_agree_iff (List.forall_mem_singleton.2 ⟨hv, rfl⟩)
  obtain rfl : s = t := Except.ok.inj (hs.symm.trans ht)
  obtain ⟨out, hout, hp⟩ := exists_disclosed?_post a (uniformTxid 17)
  have hlast : (chronicle [v]).last? a.place = some out := by
    rw [chronicle, List.flatMap_singleton, told_board hboard hid]
    exact (Chronicle.last?_append_singleton [_] (a.entry _) a.place).trans
      (congrArg (Option.or · _) hout)
  refine ⟨v, s, ⟨uniformTxid 17, .int 0⟩, a.place, hv, hs,
    (hlisted _ _).2 ⟨?_, out, _, hlast, hp, (Outpoint.same_iff rfl).2 ⟨rfl, rfl⟩⟩⟩
  rw [isSpent_eq_false, hspent]
  simp [Post.place, hindex]

end ContractState

end StrictContract
