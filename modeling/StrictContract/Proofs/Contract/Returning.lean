import StrictContract.Proofs.Contract.Answering
import StrictContract.Proofs.Contract.Spending
import StrictContract.Proofs.TypeSystem.Language
import StrictContract.Proofs.TypeSystem.Strictness

/-! # Returning — when a check gives a report

Whatever has no encoding is reported as a fault. What a check hands on unexamined are payloads:
metadata, global state and structured state, which are taken for byte strings in order to be decoded. A
payload is **packable** when it can be taken so, and an operation is **checkable** when all payloads are
packable that its check decodes. The check of an ordinary consignment gives a report exactly when its
operations are checkable, and fails otherwise. -/

namespace StrictContract

open Codec

/-! ## Packable payloads -/

/-- A value is **packable** when it can be taken for a byte string: it is one, it is a number of zero
bytes, or it is no text and what a loop over it visits are bytes. -/
def Value.Packable (v : Value) : Prop :=
  match v.octets?, v.number? with
  | some _, _ => True
  | none, some n => 0 ≤ n ∧ n ≤ mostZeros
  | none, none => v.codePoints? = none ∧ ∃ items, v.items? = some items ∧
    ∀ x ∈ items, ∃ n, x.number? = some n ∧ 0 ≤ n ∧ n < 256

section

variable {α β : Type}

/-- The first step of a strict computation is strict. -/
theorem IsStrict.of_bind {x : Except Failure α} {f : α → Except Failure β} (h : IsStrict (x >>= f)) :
    IsStrict x := by
  cases x with
  | ok a => exact isStrict_ok a
  | error e =>
    rintro _ ⟨⟩
    exact h e rfl

/-- A misuse is not strict. -/
theorem not_isStrict_misuse (m : Misuse) : ¬ IsStrict (misuse m : Except Failure α) := by
  intro h
  obtain ⟨e, he⟩ := h _ rfl
  cases he

theorem not_isStrict_reject (fault : ValueFault) :
    ¬ IsStrict (reject fault : Except Failure α) := by
  intro h
  obtain ⟨e, he⟩ := h _ rfl
  cases he

end

namespace Codec

variable {c : Codec}

/-- A number stands for zero bytes when it is neither negative nor too large. -/
theorem zeroCount_cases (n : Int) :
    (0 ≤ n ∧ n ≤ mostZeros ∧ zeroCount n = .ok n.toNat) ∨
      (¬ (0 ≤ n ∧ n ≤ mostZeros) ∧ ¬ IsStrict (zeroCount n)) := by
  unfold zeroCount
  by_cases hrange : n < -0x8000000000000000 ∨ mostZeros < n
  · rw [if_pos hrange]
    exact .inr ⟨by omega, not_isStrict_misuse _⟩
  · rw [if_neg hrange]
    by_cases hmin : n < 0
    · rw [if_pos hmin]
      exact .inr ⟨by omega, not_isStrict_reject _⟩
    · rw [if_neg hmin]
      exact .inl ⟨by omega, by omega, rfl⟩

/-- The items of a value are packed strictly when they are bytes. -/
theorem isStrict_pack_iff {items : List Value} :
    IsStrict (items.mapM fun x =>
      match x.number? with
      | some n => if 0 ≤ n ∧ n < 256 then Except.ok (UInt8.ofNat n.toNat) else reject .notByte
      | none => misuse .wrongType) ↔ ∀ x ∈ items, ∃ n, x.number? = some n ∧ 0 ≤ n ∧ n < 256 := by
  constructor
  · -- an item that is no byte fails before the items behind it are looked at
    intro h
    induction items with
    | nil => nofun
    | cons x items ih =>
      rw [List.mapM_cons] at h
      have hx := h.of_bind
      cases hn : x.number? with
      | none =>
        rw [hn] at hx
        exact absurd hx (not_isStrict_misuse _)
      | some n =>
        by_cases hbyte : 0 ≤ n ∧ n < 256
        · rw [hn] at h
          dsimp only at h
          rw [if_pos hbyte] at h
          exact List.forall_mem_cons.2 ⟨⟨n, hn, hbyte⟩, ih (IsStrict.of_bind (x := _) h)⟩
        · rw [hn] at hx
          dsimp only at hx
          rw [if_neg hbyte] at hx
          exact absurd hx (not_isStrict_reject _)
  · intro h
    refine isStrict_mapM fun x hx => ?_
    obtain ⟨n, hn, hbyte⟩ := h x hx
    rw [hn]
    dsimp only
    rw [if_pos hbyte]
    exact isStrict_ok _

/-- A codec that decodes strictly decodes the state values strictly that are packable, and no others. -/
theorem isStrict_decodeState_iff (hc : ∀ octets, IsStrict (c.decode octets)) {v : Value} :
    IsStrict (c.decodeState v) ↔ v.Packable := by
  by_cases hnone : v = .null ∨ v.codePoints? ≠ none
  · -- neither null nor a text is taken for anything
    cases v with
    | null =>
      refine iff_of_false (not_isStrict_misuse _) ?_
      rintro ⟨-, _, ⟨⟩, -⟩
    | text _ | broken _ => exact iff_of_false (not_isStrict_misuse _) fun h => by cases h.1
    | _ => simp [Value.codePoints?] at hnone
  · rw [not_or, not_not] at hnone
    rw [decodeState, Value.Packable]
    · cases hoctets : v.octets? with
      | some octets => exact iff_of_true (hc _) trivial
      | none =>
        cases hnumber : v.number? with
        | some n =>
          dsimp only
          rcases zeroCount_cases n with ⟨hmin, hmax, hcount⟩ | ⟨hrange, hcount⟩
          · rw [hcount]
            exact iff_of_true (hc _) ⟨hmin, hmax⟩
          · exact iff_of_false (fun h => hcount h.of_bind) hrange
        | none =>
          dsimp only [Value.iterate]
          cases hitems : v.items? with
          | none =>
            refine iff_of_false (fun h => not_isStrict_misuse .wrongType h.of_bind) ?_
            rintro ⟨-, _, ⟨⟩, -⟩
          | some items =>
            constructor
            · exact fun h => ⟨hnone.2, items, rfl, isStrict_pack_iff.1 (IsStrict.of_bind (x := _) h)⟩
            · rintro ⟨-, _, ⟨⟩, hbytes⟩
              exact (isStrict_pack_iff.2 hbytes).bind fun octets _ => hc octets
    · exact hnone.1
    · rintro s rfl
      cases hnone.2
    · rintro t rfl
      cases hnone.2

end Codec

/-- A byte string is packable. -/
theorem Value.packable_of_octets {v : Value} {octets : Octets} (h : v.octets? = some octets) :
    v.Packable := by
  rw [Packable, h]
  trivial

/-- Alike assignments have alike states. -/
theorem Assignment.alike_state {a b : Assignment} (h : a.toValue.Alike b.toValue) :
    a.state.Alike b.state := by
  cases a with
  | revealed definition state =>
    obtain ⟨definition', state', rfl, hstate⟩ := eq_revealed_of_alike h
    exact hstate
  | confidential secret state =>
    cases b with
    | revealed definition' state' =>
      obtain ⟨htype, -⟩ := (Value.Alike.record_iff (by decide)).1 h
      exact absurd htype (by decide)
    | confidential secret' state' =>
      obtain ⟨-, -, -, -, hstate, -⟩ := (Value.Alike.record_iff (by decide)).1 h
      exact hstate

/-! ## Findings of operations -/

/-- A loop gives results when every round does. -/
theorem exists_mapM_iff {α β : Type} {f : α → Except Failure β} {xs : List α} :
    (∃ ys, xs.mapM f = .ok ys) ↔ ∀ x ∈ xs, ∃ y, f x = .ok y := by
  refine ⟨?_, TypeSystem.exists_mapM⟩
  rintro ⟨ys, h⟩
  obtain ⟨ps, rfl, -, hps⟩ := mapM_eq_ok.1 h
  exact List.forall_mem_map.2 fun q hq => ⟨_, hps q hq⟩

/-- A type that is described is held. -/
theorem TypeSystem.contains_of_codecOf {types : TypeSystem} {sid : SemId} {D : Codec}
    (hD : types.codecOf sid = .ok D) : types.contains sid = true := by
  rw [codecOf, describe, describeBy] at hD
  obtain ⟨d, hd, -⟩ := bind_eq_ok.1 hD
  rw [contains, find_eq_ok.1 hd]
  rfl

/-- The violations of a state value are found when it is packable, if its type is described. -/
theorem exists_valueViolations_iff {types : TypeSystem} (htypes : types.WellFormed) {sid : SemId}
    {v : Value} {path : String} : (∃ found, valueViolations types sid v path = .ok found) ↔
      ((∃ D, types.codecOf sid = .ok D) → v.Packable) := by
  -- only strict errors are made into violations
  have hdecode : IsStrict (do (← types.codecOf sid).decodeState v) ↔
      ((∃ D, types.codecOf sid = .ok D) → v.Packable) := by
    constructor
    · rintro h ⟨D, hD⟩
      rw [hD] at h
      exact (Codec.isStrict_decodeState_iff (htypes.isStrict_decode hD)).1 h
    · intro h
      refine (htypes.isStrict_codecOf sid).bind fun D hD => ?_
      exact (Codec.isStrict_decodeState_iff (htypes.isStrict_decode hD)).2 (h ⟨D, hD⟩)
  rw [valueViolations]
  cases hin : types.contains sid with
  | false =>
    refine iff_of_true ⟨_, rfl⟩ ?_
    rintro ⟨D, hD⟩
    rw [TypeSystem.contains_of_codecOf hD] at hin
    cases hin
  | true =>
    rw [← hdecode]
    cases h : (do (← types.codecOf sid).decodeState v) with
    | ok w => exact iff_of_true ⟨_, rfl⟩ (isStrict_ok w)
    | error f =>
      constructor
      · rintro ⟨found, hfound⟩ f' hf
        cases hf
        cases f with
        | strict e => exact ⟨e, rfl⟩
        | _ => cases hfound
      · intro hstrict
        obtain ⟨e, rfl⟩ := hstrict f rfl
        exact ⟨_, rfl⟩

namespace Operation

/-- The **payloads** that the check of an operation against a shape decodes are packable. They are the
metadata, the items of global state and the assigned state of an allowed and declared type that is
described; assigned state is structured besides. -/
structure PayloadsPackable (o : Operation) (s : Schema) (types : TypeSystem) (shape : OperationSchema) :
    Prop where
  metadata : ∀ e ∈ o.state.metadata.entries, shape.metadata.contains e.1 = true →
    ∀ d, s.metaTypes.get? e.1 = some d → (∃ D, types.codecOf d.type = .ok D) → e.2.Packable
  globals : ∀ e ∈ o.state.globals.entries, shape.globals.contains e.1 = true →
    ∀ d, s.globalTypes.get? e.1 = some d → (∃ D, types.codecOf d.type = .ok D) →
      ∀ v ∈ e.2, v.Packable
  assignments : ∀ e ∈ o.state.assignments.entries, shape.assignments.contains e.1 = true →
    ∀ d sid, s.ownedTypes.get? e.1 = some d → d.state = .structured sid → e.2.kind = .structured →
      (∃ D, types.codecOf sid = .ok D) → ∀ a ∈ e.2.items, a.state.Packable

variable {o : Operation} {c : Context}

/-- The violations in metadata are found when the values are packable that are decoded. -/
theorem exists_metadataViolations_iff (htypes : c.types.WellFormed) :
    (∃ found, o.metadataViolations c = .ok found) ↔
      ∀ e ∈ o.state.metadata.entries, c.shape.metadata.contains e.1 = true →
        ∀ d, c.schema.metaTypes.get? e.1 = some d → (∃ D, c.types.codecOf d.type = .ok D) →
          e.2.Packable := by
  refine exists_made.trans (exists_mapM_iff.trans ?_)
  simp only [Table.mem_sorted]
  refine forall₂_congr fun e _ => ?_
  unfold Table.contains
  cases c.shape.metadata.get? e.1 with
  | none => exact iff_of_true ⟨_, rfl⟩ fun h => by cases h
  | some bound =>
    cases c.schema.metaTypes.get? e.1 with
    | none => exact iff_of_true ⟨_, rfl⟩ fun _ d h => by cases h
    | some d =>
      refine (exists_valueViolations_iff htypes).trans ⟨?_, fun h => h rfl d rfl⟩
      rintro h - _ ⟨⟩
      exact h

/-- The violations in global state are found when the items are packable that are decoded. -/
theorem exists_globalsViolations_iff (htypes : c.types.WellFormed) :
    (∃ found, o.globalsViolations c = .ok found) ↔
      ∀ e ∈ o.state.globals.entries, c.shape.globals.contains e.1 = true →
        ∀ d, c.schema.globalTypes.get? e.1 = some d → (∃ D, c.types.codecOf d.type = .ok D) →
          ∀ v ∈ e.2, v.Packable := by
  refine exists_made.trans (exists_mapM_iff.trans ?_)
  simp only [Table.mem_sorted]
  refine forall₂_congr fun e _ => ?_
  unfold Table.contains
  cases c.shape.globals.get? e.1 with
  | none => exact iff_of_true ⟨_, rfl⟩ fun h => by cases h
  | some bound =>
    cases c.schema.globalTypes.get? e.1 with
    | none => exact iff_of_true ⟨_, rfl⟩ fun _ d h => by cases h
    | some d =>
      refine (exists_made.trans exists_mapM_iff).trans ?_
      simp only [exists_valueViolations_iff htypes]
      rw [forall_mem_zipIdx_fst (P := fun v : Value =>
        (∃ D, c.types.codecOf d.type = .ok D) → v.Packable)]
      constructor
      · rintro h - _ ⟨⟩ hD v hv
        exact h v hv hD
      · exact fun h v hv hD => h rfl d rfl hD v hv

/-- The violations of an assignment are found when its state is packable, if it is decoded. -/
theorem exists_assignmentViolations_iff (htypes : c.types.WellFormed) {state : StateSchema}
    {path : String} {a : Assignment} : (∃ found, o.assignmentViolations c state path a = .ok found) ↔
      ∀ sid, state = .structured sid → (∃ D, c.types.codecOf sid = .ok D) → a.state.Packable := by
  unfold assignmentViolations
  cases state with
  | structured sid =>
    refine exists_made.trans ((exists_valueViolations_iff htypes).trans ⟨?_, fun h => h sid rfl⟩)
    rintro h _ ⟨⟩
    exact h
  | declarative | fungible => exact iff_of_true ⟨_, rfl⟩ nofun

/-- The violations of the assignments of one type are found when the states are packable that are
decoded. -/
theorem exists_typeViolations_iff (htypes : c.types.WellFormed) {state : StateSchema}
    {path : String} {a : Assignments} : (∃ found, o.typeViolations c state path a = .ok found) ↔
      ∀ sid, state = .structured sid → a.kind = .structured → (∃ D, c.types.codecOf sid = .ok D) →
        ∀ x ∈ a.items, x.state.Packable := by
  rw [typeViolations]
  by_cases hkind : a.kind = state.kind
  · rw [if_neg (not_not_intro hkind)]
    refine exists_made.trans (exists_mapM_iff.trans ?_)
    simp only [exists_assignmentViolations_iff htypes, Assignments.positioned, List.forall_mem_map]
    rw [forall_mem_zipIdx_fst (P := fun x : Assignment =>
      ∀ sid, state = .structured sid → (∃ D, c.types.codecOf sid = .ok D) → x.state.Packable)]
    constructor
    · exact fun h sid hsid _ hD x hx => h x hx sid hsid hD
    · rintro h x hx sid rfl hD
      exact h sid rfl hkind hD x hx
  · rw [if_pos hkind]
    refine iff_of_true ⟨_, rfl⟩ ?_
    rintro sid rfl hstructured
    exact absurd hstructured hkind

/-- The violations in assignments are found when the states are packable that are decoded. -/
theorem exists_assignmentsViolations_iff (htypes : c.types.WellFormed) :
    (∃ found, o.assignmentsViolations c = .ok found) ↔
      ∀ e ∈ o.state.assignments.entries, c.shape.assignments.contains e.1 = true →
        ∀ d sid, c.schema.ownedTypes.get? e.1 = some d → d.state = .structured sid →
          e.2.kind = .structured → (∃ D, c.types.codecOf sid = .ok D) →
            ∀ a ∈ e.2.items, a.state.Packable := by
  refine exists_made.trans (exists_mapM_iff.trans ?_)
  simp only [Table.mem_sorted]
  refine forall₂_congr fun e _ => ?_
  unfold Table.contains
  cases c.shape.assignments.get? e.1 with
  | none => exact iff_of_true ⟨_, rfl⟩ fun h => by cases h
  | some bound =>
    cases c.schema.ownedTypes.get? e.1 with
    | none => exact iff_of_true ⟨_, rfl⟩ fun _ d sid h => by cases h
    | some d =>
      refine (exists_typeViolations_iff htypes).trans ⟨?_, fun h sid => h rfl d sid rfl⟩
      rintro h - _ sid ⟨⟩
      exact h sid

/-- The violations of an operation are found when the payloads are packable that are decoded. -/
theorem exists_fieldViolations_iff (htypes : c.types.WellFormed) :
    (∃ found, o.fieldViolations c = .ok found) ↔ o.PayloadsPackable c.schema c.types c.shape := by
  have hparts : o.PayloadsPackable c.schema c.types c.shape ↔
      (∃ found, o.metadataViolations c = .ok found) ∧ (∃ found, o.globalsViolations c = .ok found) ∧
        ∃ found, o.assignmentsViolations c = .ok found := by
    rw [exists_metadataViolations_iff htypes, exists_globalsViolations_iff htypes,
      exists_assignmentsViolations_iff htypes]
    exact ⟨fun h => ⟨h.metadata, h.globals, h.assignments⟩, fun ⟨hm, hg, ha⟩ => ⟨hm, hg, ha⟩⟩
  rw [hparts, fieldViolations]
  cases o.metadataViolations c with
  | error e => exact iff_of_false (by rintro ⟨found, ⟨⟩⟩) (by rintro ⟨⟨found, ⟨⟩⟩, -⟩)
  | ok metadata =>
    cases o.globalsViolations c with
    | error e => exact iff_of_false (by rintro ⟨found, ⟨⟩⟩) (by rintro ⟨-, ⟨found, ⟨⟩⟩, -⟩)
    | ok globals =>
      refine (exists_made (x := o.assignmentsViolations c)).trans ?_
      exact ⟨fun h => ⟨⟨_, rfl⟩, ⟨_, rfl⟩, h⟩, fun h => h.2.2⟩

/-- An operation is **checkable** when the type of a transition can be looked up, and the payloads are
packable that its check decodes. -/
def Checkable (o : Operation) (s : Schema) (types : TypeSystem) : Prop :=
  match o with
  | genesis _ => o.PayloadsPackable s types s.genesis
  | transition t => t.type.isKey = true ∧
      ∀ shape, s.transitionShape? t.type = .ok (some shape) → o.PayloadsPackable s types shape

/-- An operation has findings when it is checkable, wherever it stands. -/
theorem exists_findings_iff {s : Schema} {types : TypeSystem} (htypes : types.WellFormed)
    {path : String} : (∃ found, o.findings s types path = .ok found) ↔ o.Checkable s types := by
  cases o with
  | genesis g => exact exists_fieldViolations_iff htypes
  | transition t =>
    rw [findings, Checkable, Schema.transitionShape?]
    cases t.type.isKey with
    | false => exact iff_of_false (by rintro ⟨found, ⟨⟩⟩) (by rintro ⟨⟨⟩, -⟩)
    | true =>
      cases (t.type.number?.bind s.transitions.get?).map TransitionDetails.shape with
      | none => exact iff_of_true ⟨_, rfl⟩ ⟨rfl, fun shape h => by cases h⟩
      | some shape =>
        refine (exists_fieldViolations_iff htypes).trans ⟨fun h => ⟨rfl, ?_⟩, fun h => h.2 shape rfl⟩
        rintro _ ⟨⟩
        exact h

/-- What is written as a byte string is packable. -/
theorem packable_of_written {b : Bounds} {label : Option String} {v : Value}
    (h : (Codec.bytes b label).Written v) : v.Packable := by
  obtain ⟨p, hp⟩ := h
  rw [write, bind_eq_ok] at hp
  obtain ⟨octets, hoctets, -⟩ := hp
  exact Value.packable_of_octets (octets_eq_ok.1 hoctets)

/-- The metadata and the global state of an operation that has an encoding are written. -/
theorem written_of_encode {p : Octets} (h : o.encode = .ok p) :
    OperationState.metadataCodec.Written o.state.metadataValue ∧
      OperationState.globalsCodec.Written o.state.globalsValue := by
  cases o with
  | genesis g =>
    obtain ⟨q, hq, -⟩ := encode_genesis_eq_ok.1 h
    obtain ⟨-, -, -, -, -, hmetadata, hglobals, -⟩ := (written_record_iff (by decide) rfl).1 ⟨q, hq⟩
    exact ⟨hmetadata, hglobals⟩
  | transition t =>
    obtain ⟨q, hq, -⟩ := encode_transition_eq_ok.1 h
    obtain ⟨-, -, -, hmetadata, hglobals, -⟩ := (written_record_iff (by decide) rfl).1 ⟨q, hq⟩
    exact ⟨hmetadata, hglobals⟩

/-- The payloads of an operation that has an encoding are packable. -/
theorem payloadsPackable_of_encode {p : Octets} (h : o.encode = .ok p) {s : Schema}
    {types : TypeSystem} {shape : OperationSchema} : o.PayloadsPackable s types shape := by
  obtain ⟨hmetadata, hglobals⟩ := written_of_encode h
  constructor
  · intro e he _ _ _ _
    have hentry := List.forall_mem_map.1 (written_of_mapping hmetadata) e he
    exact packable_of_written hentry.2
  · intro e he _ _ _ _ v hv
    have hentry := List.forall_mem_map.1 (written_of_mapping hglobals) e he
    exact packable_of_written ((written_list_iff.1 hentry.2).2 v hv)
  · intro e he _ _ _ _ _ hkind _ a ha
    obtain ⟨y, halike, hreadable⟩ := exists_readable h
    obtain ⟨i, hi, rfl⟩ := List.getElem_of_mem ha
    have hslot : o.state.slot? ⟨Id.ofContent .operation p, e.1, i⟩ =
        some (.structured, e.2.items[i]) :=
      OperationState.slot?_eq_some.2
        ⟨e.2, Table.mem_entries.1 he, hkind, i, rfl, List.getElem?_eq_getElem hi⟩
    obtain ⟨b, hb, hab⟩ := OperationState.exists_slot?_of_alike (alike_assignments halike) hslot
    obtain ⟨octets, hoctets⟩ := Codec.reads_bytes _ _ _ (OperationState.readable_state hreadable hb)
    have hstate := (Assignment.alike_state hab).symm
    rw [← hoctets] at hstate
    exact Value.packable_of_octets (hstate.octets_left rfl)

end Operation

namespace Consignment

variable {c : Consignment}

/-- A consignment is **checkable** when its operations are. -/
def Checkable (c : Consignment) : Prop := ∀ o ∈ c.operations, o.Checkable c.schema c.types

/-- What is found besides faults is found when the consignment is checkable. -/
theorem exists_otherFindings_iff (htypes : c.types.WellFormed) :
    (∃ found, c.otherFindings c.indexed = .ok found) ↔ c.Checkable := by
  have hgenesis : (∃ found, c.genesisFindings c.indexed = .ok found) ↔
      (Operation.genesis c.genesis).Checkable c.schema c.types :=
    exists_made.trans (Operation.exists_findings_iff htypes)
  have hbundle : ∀ w i, (∃ found, c.bundleFindings c.indexed (WitnessBundle.indexed w) i = .ok found) ↔
      ∀ e ∈ w.bundle.transitions, (Operation.transition e.2).Checkable c.schema c.types := by
    intro w i
    refine exists_made.trans (exists_mapM_iff.trans ?_)
    rw [WitnessBundle.indexed, List.forall_mem_map]
    exact forall₂_congr fun e _ => exists_made.trans (Operation.exists_findings_iff htypes)
  have hbundles : (∃ found, (c.indexed.bundles.zipIdx.mapM fun x =>
      c.bundleFindings c.indexed x.1 x.2) = .ok found) ↔ ∀ w ∈ c.bundles, ∀ e ∈ w.bundle.transitions,
        (Operation.transition e.2).Checkable c.schema c.types := by
    rw [exists_mapM_iff]
    show (∀ x ∈ (c.bundles.map WitnessBundle.indexed).zipIdx, _) ↔ _
    rw [List.zipIdx_map, List.forall_mem_map]
    refine Iff.trans (forall₂_congr fun x _ => ?_) forall_mem_zipIdx_fst
    exact hbundle x.1 x.2
  have hall : c.Checkable ↔ (Operation.genesis c.genesis).Checkable c.schema c.types ∧
      ∀ w ∈ c.bundles, ∀ e ∈ w.bundle.transitions,
        (Operation.transition e.2).Checkable c.schema c.types := by
    rw [Checkable, operations, List.forall_mem_cons, List.forall_mem_flatMap]
    simp only [List.forall_mem_map]
  rw [hall, ← hgenesis, ← hbundles, otherFindings]
  cases c.genesisFindings c.indexed with
  | error e => exact iff_of_false (by rintro ⟨found, ⟨⟩⟩) (by rintro ⟨⟨found, ⟨⟩⟩, -⟩)
  | ok genesis => exact exists_made.trans (and_iff_right ⟨genesis, rfl⟩).symm

/-- The types of all known transitions are keys. -/
def TypesAreKeys (c : Consignment) : Prop :=
  ∀ w ∈ c.bundles, ∀ e ∈ w.bundle.known.entries, e.2.type.isKey = true

/-- An encodable consignment is checkable. -/
theorem Encodable.checkable (h : c.Encodable) (hkeys : c.TypesAreKeys) : c.Checkable := by
  refine List.forall_mem_cons.2 ⟨?_, fun o ho => ?_⟩
  · obtain ⟨p, hp⟩ := h.genesis
    exact Operation.payloadsPackable_of_encode (Operation.encode_genesis_eq_ok.2 ⟨p, hp, rfl⟩)
  · obtain ⟨w, hw, ho⟩ := List.mem_flatMap.1 ho
    obtain ⟨e, he, rfl⟩ := List.mem_map.1 ho
    have he := Table.mem_sorted.1 he
    obtain ⟨p, hp⟩ := h.transitions w hw e he
    exact ⟨hkeys w hw e he, fun shape _ =>
      Operation.payloadsPackable_of_encode (Operation.encode_transition_eq_ok.2 ⟨p, hp, rfl⟩)⟩

/-! ## Reports of ordinary consignments -/

/-- The check of an ordinary consignment gives a report when the consignment is checkable. -/
theorem Ordinary.exists_report_iff (h : c.Ordinary) :
    (∃ report, c.check.Yields (.ok report)) ↔ c.Checkable := by
  obtain ⟨faults, hfaults, -⟩ := h.exists_faults
  have hcheck := c.check_yields_faults
  rw [hfaults] at hcheck
  rw [← exists_otherFindings_iff h.types]
  constructor
  · rintro ⟨report, hreport⟩
    obtain ⟨found, hfound, -⟩ := map_eq_ok.1 (hcheck.unique hreport)
    exact exists_made.1 ⟨found, hfound⟩
  · rintro ⟨found, hfound⟩
    rw [hfound] at hcheck
    exact ⟨_, hcheck⟩

/-- The report of an ordinary consignment holds the faults of all its records, and its own fault if
they have none. -/
theorem Ordinary.faults_reported (h : c.Ordinary) {report : Report}
    (hreport : c.check.Yields (.ok report)) :
    (∀ r ∈ c.records, ∀ e, r.2 = .error (.strict e) → e.within r.1 ∈ report.violations) ∧
      ((∀ r ∈ c.records, ∃ p, r.2 = .ok p) → ∀ e, c.encode = .error (.strict e) →
        e.within "" ∈ report.violations) := by
  obtain ⟨faults, hfaults, hrecords, hown⟩ := h.exists_faults
  have hcheck := c.check_yields_faults
  rw [hfaults] at hcheck
  obtain ⟨all, hall, rfl⟩ := map_eq_ok.1 (hcheck.unique hreport)
  obtain ⟨rest, -, hall⟩ := bind_eq_ok.1 (show (c.otherFindings c.indexed >>= _) = _ from hall)
  obtain rfl := Except.ok.inj hall
  exact ⟨fun r hr e he => List.mem_append_left _ (hrecords r hr e he),
    fun hok e he => List.mem_append_left _ (hown hok e he)⟩

/-- A consignment of which the check gives a report is assembled or rejected with that report. -/
theorem assemble_of_report {report : Report} (hreport : c.check.Yields (.ok report)) :
    (∃ v, c.assemble.Yields (.ok v)) ∨ c.assemble.Yields (.error (.rejected report.violations)) := by
  obtain ⟨⟨found, ix⟩, hfound, rfl⟩ := map_eq_ok.1 (c.check_yields.unique hreport)
  have hassemble : c.assemble.Yields (c.judge found ix) := by
    have h := c.assemble_yields
    rwa [hfound] at h
  cases hjudge : c.judge found ix with
  | ok v => exact .inl ⟨v, hjudge ▸ hassemble⟩
  | error f =>
    refine .inr ?_
    suffices hrejected : f = .rejected found by rwa [← hrejected, ← hjudge]
    unfold judge at hjudge
    split at hjudge
    · cases hjudge
    · exact (Except.error.inj hjudge).symm

/-- Every record of an ordinary consignment has an encoding or a fault. The check of the consignment
gives a report exactly when all payloads are packable that it decodes; then the report holds every fault,
and the consignment is assembled or rejected with the report. -/
theorem check_reports_iff_checkable (h : c.Ordinary) :
    (∀ r ∈ c.records, (∃ p, r.2 = .ok p) ∨ ∃ e, r.2 = .error (.strict e)) ∧
      ((∃ report, c.check.Yields (.ok report)) ↔ c.Checkable) ∧
      ∀ report, c.check.Yields (.ok report) →
        (∀ r ∈ c.records, ∀ e, r.2 = .error (.strict e) → e.within r.1 ∈ report.violations) ∧
        ((∀ r ∈ c.records, ∃ p, r.2 = .ok p) → ∀ e, c.encode = .error (.strict e) →
          e.within "" ∈ report.violations) ∧
        ((∃ v, c.assemble.Yields (.ok v)) ∨
          c.assemble.Yields (.error (.rejected report.violations))) := by
  refine ⟨fun r hr => ?_, h.exists_report_iff, fun report hreport => ?_⟩
  · have hstrict := h.isStrict_records r hr
    cases hr : r.2 with
    | ok p => exact .inl ⟨p, rfl⟩
    | error f =>
      obtain ⟨e, rfl⟩ := hstrict f hr
      exact .inr ⟨e, rfl⟩
  · obtain ⟨hrecords, hown⟩ := h.faults_reported hreport
    exact ⟨hrecords, hown, assemble_of_report hreport⟩

/-- Consignments like the smallest one are ordinary when their timestamp is and what they assign. -/
theorem ordinary_of_smallest {c : Consignment} (hschema : c.schema.Regular) (htypes : c.types.WellFormed)
    {timestamp : Value} (assigned : List Value) (htimestamp : timestamp.Ordinary)
    (hassigned : ∀ v ∈ assigned, v.Ordinary)
    (hsupplied : c.supplied = [.member versions "V0" 0, timestamp, .text "a",
      .member chainNet "BitcoinMainnet" 0, .member sealClosingStrategy "FirstOpretOrTapret" 0] ++
      assigned) : c.Ordinary := by
  refine ⟨hschema, htypes, ?_⟩
  rw [hsupplied]
  refine List.forall_mem_append.2 ⟨?_, hassigned⟩
  simp only [List.forall_mem_cons]
  exact ⟨ordinary_member (by decide) rfl rfl, htimestamp, ⟨fun _ _ => rfl, rfl⟩,
    ordinary_member (by decide) rfl rfl, ordinary_member (by decide) rfl rfl, List.forall_mem_nil _⟩

/-- The smallest consignment with a timestamp that no signed integer of eight bytes is: the fault of its
genesis is reported. -/
theorem check_reports_iff_checkable_untimely : ∃ (c : Consignment) (report : Report),
    c.Ordinary ∧ c.Checkable ∧ c.check.Yields (.ok report) ∧
      StrictError.mk (.doesNotFit 0x8000000000000000 (Codec.sint 8).name) ["genesis", "timestamp"] ∈
        report.violations := by
  let unknown : SchemaId := zeroId .schema
  let untimely : Genesis := { smallestGenesis unknown with timestamp := .int 0x8000000000000000 }
  have hordinary : ({ smallest unknown with genesis := untimely } : Consignment).Ordinary :=
    ordinary_of_smallest ⟨rfl, List.forall_mem_nil _⟩ TypeSystem.wellFormed_empty []
      (ordinary_int _) (List.forall_mem_nil _) rfl
  have hcheckable : ({ smallest unknown with genesis := untimely } : Consignment).Checkable :=
    List.forall_mem_singleton.2
      ⟨List.forall_mem_nil _, List.forall_mem_nil _, List.forall_mem_nil _⟩
  have htimestamp : (Codec.sint 8).write (.int 0x8000000000000000) =
      fail (.doesNotFit 0x8000000000000000 (Codec.sint 8).name) := by
    rw [write]
    rfl
  have hfault : (Operation.genesis untimely).encode = .error (.strict
      ⟨.doesNotFit 0x8000000000000000 (Codec.sint 8).name, ["genesis", "timestamp"]⟩) := by
    rw [Operation.encode, Operation.codec, Operation.toValue, Genesis.toValue, write_union_record,
      writeAccepted]
    simp [accepts, untimely, smallestGenesis, Genesis.codec, write_record, writeFields, ok_bind,
      write_id, htimestamp, Value.field, Value.feature?, List.lookup_cons]
    rfl
  obtain ⟨-, hreports, hfaults⟩ := check_reports_iff_checkable hordinary
  obtain ⟨report, hreport⟩ := hreports.2 hcheckable
  refine ⟨_, report, hordinary, hcheckable, hreport, ?_⟩
  exact (hfaults report hreport).1 _ (List.mem_cons_of_mem _ (List.mem_cons_self ..)) _ hfault

/-- A consignment like the smallest one, of which the schema declares structured state of a type that
holds nothing, and the genesis assigns null. -/
def unpackable (schemaId : SchemaId) (sid : SemId) : Consignment :=
  { smallest schemaId with
    genesis := { smallestGenesis schemaId with
      state := ⟨.empty, .empty, Table.empty.put 1 ⟨.structured,
        [.revealed zeroSeal .null]⟩⟩ }
    schema := { smallestSchema with
      ownedTypes := Table.empty.put 1 ⟨.structured sid, .text "a"⟩
      genesis := ⟨.empty, .empty, none, Table.empty.put 1 ⟨0, 65535⟩, none⟩ }
    types := ⟨[(sid, .primitive 0)]⟩ }

/-- The type of the null state is described, so its check fails. -/
theorem valueViolations_unpackable (sid : SemId) (path : String) :
    valueViolations ⟨[(sid, .primitive 0)]⟩ sid .null path = misuse .wrongType := by
  have hget : (⟨[(sid, .primitive 0)]⟩ : TypeSystem).get? sid = some (.primitive 0) := by
    simp [TypeSystem.get?]
  have hcodec : (⟨[(sid, .primitive 0)]⟩ : TypeSystem).codecOf sid = .ok .unit :=
    TypeSystem.codecOf_eq_ok.2 ⟨1, bind_eq_ok.2 ⟨_, TypeSystem.find_eq_ok.2 hget, rfl⟩⟩
  rw [valueViolations, TypeSystem.contains_of_codecOf hcodec, hcodec]
  rfl

/-- The findings of an unpackable consignment fail. -/
theorem otherFindings_unpackable {schemaId : SchemaId} {sid : SemId}
    (htypes : (unpackable schemaId sid).types.WellFormed) :
    (unpackable schemaId sid).otherFindings (unpackable schemaId sid).indexed = misuse .wrongType := by
  let c := unpackable schemaId sid
  let o := Operation.genesis c.genesis
  let context : Operation.Context := ⟨c.schema, c.types, c.schema.genesis, "genesis"⟩
  let a : Assignment := .revealed zeroSeal .null
  -- the misuse is no violation, so it goes up through every loop
  have hassignment : ∀ path, o.assignmentViolations context (.structured sid) path a =
      misuse .wrongType := by
    intro path
    show (do
      let value ← valueViolations ⟨[(sid, .primitive 0)]⟩ sid .null (path ++ ".state")
      return [] ++ value) = _
    rw [valueViolations_unpackable]
    rfl
  have htype : ∀ path, o.typeViolations context (.structured sid) path ⟨.structured, [a]⟩ =
      misuse .wrongType := by
    intro path
    show (do
      let found ← [(0, a)].mapM fun (i, x) =>
        o.assignmentViolations context (.structured sid) (path ++ indexSegment i) x
      return found.flatten) = _
    rw [List.mapM_cons]
    dsimp only
    rw [hassignment]
    rfl
  have hassignments : o.assignmentsViolations context = misuse .wrongType := by
    have hsorted : o.state.assignments.sorted intLe = [(1, ⟨.structured, [a]⟩)] :=
      List.mergeSort_singleton _
    rw [Operation.assignmentsViolations, hsorted, List.mapM_cons]
    show ((o.typeViolations context (.structured sid) _ ⟨.structured, [a]⟩ >>= _) >>= _) = _
    rw [htype]
    rfl
  have hfields : o.fieldViolations context = misuse .wrongType := by
    obtain ⟨metadata, hmetadata⟩ := (Operation.exists_metadataViolations_iff (o := o) (c := context)
      htypes).2 (List.forall_mem_nil _)
    obtain ⟨globals, hglobals⟩ := (Operation.exists_globalsViolations_iff (o := o) (c := context)
      htypes).2 (List.forall_mem_nil _)
    rw [Operation.fieldViolations, hmetadata, hglobals, hassignments]
    rfl
  show (do
    let genesis ← (do
      let operation ← o.fieldViolations context
      return c.referenceViolations c.indexed ++ c.schema.violations c.types ++ operation)
    _) = _
  rw [hfields]
  rfl

/-- The canonical bytes of the definition of the type that holds nothing. -/
def unitOctets : Octets := [0, 0]

/-- The type that holds nothing makes a well-formed type system. -/
theorem wellFormed_unit :
    (⟨[(Id.ofContent .sem unitOctets, .primitive 0)]⟩ : TypeSystem).WellFormed := by
  have hinsert := TypeSystem.insert_empty (d := .primitive (.ofNat 0)) (.primitive 0) unitOctets
    (toOption_eq_some.1 (by decide +kernel)) rfl (toOption_eq_some.1 (by decide +kernel)) rfl
  have h := (TypeSystem.Reachable.insert (.primitive (.ofNat 0)) .empty).wellFormed
  rwa [hinsert] at h

/-- State that is null is not reported as a fault of the genesis: the check fails with a misuse, and so
does the assembly. -/
theorem check_fails_unpackable : ∃ c : Consignment, c.Ordinary ∧
    (∃ e, (Operation.genesis c.genesis).encode = .error (.strict e)) ∧
      c.check.Yields (.error (.misuse .wrongType)) ∧
        c.assemble.Yields (.error (.misuse .wrongType)) := by
  let sid : SemId := Id.ofContent .sem unitOctets
  let unknown : SchemaId := zeroId .schema
  have hordinary : (unpackable unknown sid).Ordinary := by
    refine ordinary_of_smallest ⟨rfl, List.forall_mem_nil _⟩ wellFormed_unit
      [.null, .int 0, .int 0] (ordinary_int 0) ?_ rfl
    simp only [List.forall_mem_cons]
    exact ⟨⟨fun _ _ => rfl, rfl⟩, ordinary_int 0, ordinary_int 0, List.forall_mem_nil _⟩
  obtain ⟨faults, hfaults, -⟩ := hordinary.exists_faults
  have hfindings : (unpackable unknown sid).findings = misuse .wrongType := by
    have h := findings_fst (unpackable unknown sid)
    rw [hfaults, otherFindings_unpackable wellFormed_unit] at h
    cases hresult : (unpackable unknown sid).findings with
    | ok x =>
      rw [hresult] at h
      cases h
    | error f =>
      rw [hresult] at h
      cases h
      rfl
  have hcheck := (unpackable unknown sid).check_yields
  have hassemble := (unpackable unknown sid).assemble_yields
  rw [hfindings] at hcheck hassemble
  refine ⟨_, hordinary, ?_, hcheck, hassemble⟩
  have hstrict := hordinary.isStrict_records _ (List.mem_cons_of_mem _ (List.mem_cons_self ..))
  cases hencode : (Operation.genesis (unpackable unknown sid).genesis).encode with
  | error f =>
    obtain ⟨e, rfl⟩ := hstrict f hencode
    exact ⟨e, rfl⟩
  | ok p =>
    -- with an encoding the genesis would be checkable
    have hcheckable : (unpackable unknown sid).Checkable :=
      List.forall_mem_singleton.2 (Operation.payloadsPackable_of_encode hencode)
    obtain ⟨report, hreport⟩ := hordinary.exists_report_iff.2 hcheckable
    cases hcheck.unique hreport

end Consignment

end StrictContract
