import StrictContract.Proofs.TypeSystem.WellFormed
import StrictContract.TypeSystem.Checking

/-! # Encoding type systems — the order of the ids

A type system is written in ascending order of its ids, and what is read is loaded, that is, checked
again. Every well-formed system passes these checks, so its bytes are read as the **sorted** system:
the same definitions in ascending order of their ids. -/

namespace StrictContract

open Codec

namespace TypeSystem

variable {ts : TypeSystem}

/-! ## Ascending systems -/

/-- A system is **ascending** when its ids are. -/
def Ascending (ts : TypeSystem) : Prop := ts.entries.Pairwise fun a b => a.1.octets < b.1.octets

/-- The system with its definitions in ascending order of their ids. -/
def sorted (ts : TypeSystem) : TypeSystem := ⟨ts.entries.mergeSort fun a b => a.1.le b.1⟩

/-- Sorting a system keeps its entries. -/
theorem entries_sorted_perm (ts : TypeSystem) : ts.sorted.entries.Perm ts.entries :=
  List.mergeSort_perm ..

/-- The ids of an ascending system are all different. -/
theorem Ascending.nodup (h : ts.Ascending) : (ts.entries.map Prod.fst).Nodup := by
  refine List.pairwise_map.2 (List.Pairwise.imp (fun {a b} hlt he => ?_) h)
  rw [he] at hlt
  exact List.lt_irrefl _ hlt

/-- An ascending system is sorted already. -/
theorem Ascending.sorted_eq (h : ts.Ascending) : ts.sorted = ts :=
  congrArg TypeSystem.mk (List.mergeSort_of_pairwise
    (List.Pairwise.imp (fun hlt => decide_eq_true (List.le_of_lt hlt)) h))

/-- Sorting a system whose ids are all different makes it ascending. -/
theorem ascending_sorted (h : (ts.entries.map Prod.fst).Nodup) : ts.sorted.Ascending := by
  refine pairwise_lt_mergeSort (fun e : SemId × TypeDef => e.1.octets) ?_
  rw [List.Nodup, List.pairwise_map] at h ⊢
  exact h.imp fun hne he => hne (Id.ext he)

/-- Well-formedness does not depend on the order of the definitions. -/
theorem WellFormed.of_perm (h : ts.WellFormed) {ts' : TypeSystem}
    (hperm : ts'.entries.Perm ts.entries) : ts'.WellFormed where
  nodup := (hperm.map Prod.fst).nodup_iff.2 h.nodup
  named e he := h.named e (hperm.mem_iff.1 he)
  valid e he := h.valid e (hperm.mem_iff.1 he)
  closed e he ref href := by
    have hmem := contains_iff.1 (h.closed e (hperm.mem_iff.1 he) ref href)
    exact contains_iff.2 ((hperm.map Prod.fst).mem_iff.2 hmem)
  small := by
    have hsmall := h.small
    rwa [size, ← hperm.length_eq] at hsmall
  normal e he := h.normal e (hperm.mem_iff.1 he)

/-- Systems with the same entries in whatever order are the same. -/
theorem WellFormed.same_of_perm (h : ts.WellFormed) {ts' : TypeSystem}
    (hperm : ts'.entries.Perm ts.entries) : ts.same ts' = true := by
  rw [same, Bool.and_eq_true, beq_iff_eq, List.all_eq_true]
  refine ⟨hperm.length_eq.symm, fun e he => ?_⟩
  rw [beq_iff_eq]
  exact (h.of_perm hperm).get?_eq_some.2 (hperm.mem_iff.2 he)

/-! ## The codec of type systems -/

/-- The number of definitions fits into its prefix. -/
theorem capacity_small : capacity ≤ 0xffffffff := by decide

/-- The codec of the definitions by their ids. -/
def entriesCodec : Codec :=
  .map (.id .sem) TypeDef.codec ⟨0, capacity, Nat.zero_le capacity, capacity_small⟩ .mapping none

/-- The mapping of a system. -/
def entriesValue (ts : TypeSystem) : Value :=
  .map (ts.entries.map fun e => (.id .sem e.1, e.2.toValue))

/-- Definitions by their ids have canonical bytes. -/
@[simp] theorem canonical_entriesCodec : Canonical entriesCodec :=
  canonical_map (canonical_id .sem) (keyed_id .sem) TypeDef.canonical_codec _ _

/-- The drafts of a system are read from its mapping. -/
theorem draftsOf?_entries (entries : List (SemId × TypeDef)) :
    draftsOf? (entries.map fun e => (.id .sem e.1, e.2.toValue)) =
      some (entries.map fun e => (e.1, e.2.toDraft)) := by
  rw [draftsOf?]
  induction entries with
  | nil => rfl
  | cons e entries ih =>
    rw [List.map_cons, List.mapM_cons, ih]
    simp [TypeDef.toValue, Draft.ofValue?_toValue]

/-- The mapping of a system is loaded as its drafts are. -/
theorem ofValue_entriesValue (ts : TypeSystem) :
    ofValue ts.entriesValue = load (ts.entries.map fun e => (e.1, e.2.toDraft)) := by
  simp only [ofValue, entriesValue, draftsOf?_entries]

/-- The record of a system has the system, if its definitions are in normal form. -/
theorem ofRecord?_toValue (hnormal : ∀ e ∈ ts.entries, e.2.Normal) :
    ofRecord? ts.toValue = some ts := by
  have hloop : ∀ entries : List (SemId × TypeDef), (∀ e ∈ entries, e.2.Normal) →
      (entries.map fun e => (e.1, e.2.toDraft)).mapM (fun x : SemId × Draft =>
        x.2.definition?.bind fun d => some (x.1, d)) = some entries := by
    intro entries hnormal
    induction entries with
    | nil => rfl
    | cons e entries ih =>
      rw [List.forall_mem_cons] at hnormal
      rw [List.map_cons, List.mapM_cons, ih hnormal.2]
      simp [Draft.definition?_toDraft hnormal.1]
  simp [ofRecord?, toValue, draftsOf?_entries, hloop ts.entries hnormal]

/-- A well-formed system is loaded again. -/
theorem WellFormed.load_toDraft (h : ts.WellFormed) :
    load (ts.entries.map fun e => (e.1, e.2.toDraft)) = .ok ts.sorted := by
  refine load_eq_ok.2 ⟨?_, ?_, ?_, ts.entries.map fun e => ((e.1, e.2.toDraft), e), ?_, ?_, ?_⟩
  · rw [List.length_map]
    exact h.small
  · exact List.forall_mem_map.2 fun e he => ⟨h.valid e he, h.named e he⟩
  · refine List.forall_mem_map.2 fun e he ref href => ?_
    rw [TypeDef.references_toDraft] at href
    have hmem := contains_iff.1 (h.closed e he ref href)
    simpa [Function.comp_def] using hmem
  · simp [Function.comp_def]
  · exact List.forall_mem_map.2 fun e he => ⟨rfl, Draft.definition?_toDraft (h.normal e he)⟩
  · simp [sorted, Function.comp_def]

/-- What is loaded from definitions in normal form are these definitions. -/
theorem eq_sorted_of_load {entries : List (SemId × TypeDef)} (hnormal : ∀ e ∈ entries, e.2.Normal)
    (h : load (entries.map fun e => (e.1, e.2.toDraft)) = .ok ts) : ts = sorted ⟨entries⟩ := by
  obtain ⟨-, -, -, ps, hentries, hps, rfl⟩ := load_eq_ok.1 h
  let known : SemId × Draft → Option (SemId × TypeDef) := fun x => x.2.definition?.map (x.1, ·)
  have hsome : (ps.map Prod.snd).map some = entries.map some :=
    calc (ps.map Prod.snd).map some
        = (ps.map Prod.fst).map known := by
          rw [List.map_map, List.map_map]
          refine List.map_congr_left fun q hq => ?_
          simp only [Function.comp_apply, known, (hps q hq).2, Option.map_some, ← (hps q hq).1]
      _ = (entries.map fun e => (e.1, e.2.toDraft)).map known := by rw [hentries]
      _ = entries.map some := by
          rw [List.map_map]
          refine List.map_congr_left fun e he => ?_
          simp only [Function.comp_apply, known, Draft.definition?_toDraft (hnormal e he),
            Option.map_some]
  rw [(List.map_inj_right fun _ _ => Option.some.inj).1 hsome]
  rfl

/-- Of two ids the smaller one has the smaller bytes. -/
theorem lt_of_precedes_id {a b : SemId}
    (h : (Codec.id .sem).Precedes (.id .sem a) (.id .sem b)) : a.octets < b.octets := by
  obtain ⟨p, q, ⟨x, hx, rfl⟩, ⟨y, hy, rfl⟩, hlt⟩ := h
  cases hx
  cases hy
  exact hlt

/-- What encodes a type system is the mapping of an ascending well-formed system. -/
theorem encodes_codec_iff {v : Value} {p : Octets} :
    codec.Encodes v p ↔ ∃ ts : TypeSystem, ts.WellFormed ∧ ts.Ascending ∧ v = ts.toValue ∧
      entriesCodec.Encodes ts.entriesValue p := by
  constructor
  · rintro ⟨vs, ⟨w, ws, q, t, rfl, rfl, hw, rfl, rfl⟩, hv⟩
    rw [List.append_nil]
    -- the mapping is one of definitions in normal form, by ascending ids
    obtain ⟨entries, rfl, hlt⟩ := exists_mapping (keyed_id .sem) (reads_id .sem)
      (g := fun d : { d : TypeDef // d.Normal } => d.1.toValue)
      (fun v hv => by
        obtain ⟨d, hd, rfl⟩ := TypeDef.reads_codec hv
        exact ⟨⟨d, hd⟩, rfl⟩) ⟨q, hw⟩
    let ts : TypeSystem := ⟨entries.map fun e => (e.1, e.2.1)⟩
    have hnormal : ∀ e ∈ ts.entries, e.2.Normal := List.forall_mem_map.2 fun e _ => e.2.2
    have hascending : ts.Ascending := List.pairwise_map.2 (hlt.imp lt_of_precedes_id)
    have hvalue : Value.map (entries.map fun e => (.id .sem e.1, e.2.1.toValue)) = ts.entriesValue := by
      simp [ts, entriesValue, Function.comp_def]
    rw [hvalue] at hv hw
    obtain ⟨loaded, hload, hv⟩ := bind_eq_ok.1 hv
    rw [ofValue_entriesValue] at hload
    have hloaded := eq_sorted_of_load hnormal hload
    rw [hascending.sorted_eq] at hloaded
    subst hloaded
    refine ⟨ts, wellFormed_of_load ?_ hload, hascending, (pure_eq_ok.1 hv).symm, hw⟩
    rw [List.map_map]
    exact hascending.nodup
  · rintro ⟨ts, hts, hascending, rfl, hp⟩
    have happend := (List.append_nil p).symm
    refine ⟨[("types", ts.entriesValue)], ⟨_, [], p, [], rfl, happend, hp, rfl, rfl⟩, ?_⟩
    refine bind_eq_ok.2 ⟨ts, ?_, rfl⟩
    rw [ofValue_entriesValue, hts.load_toDraft, hascending.sorted_eq]

/-- The record of a system is written as its mapping is. -/
theorem encode_eq (ts : TypeSystem) {p : Octets} :
    ts.encode = .ok p ↔ entriesCodec.write ts.entriesValue = .ok p := by
  have htypes : ts.toValue.field "types" = .ok ts.entriesValue := by
    simp [toValue, entriesValue, Value.field, Value.feature?]
  have haccepts : (Codec.struct "TypeSystem" [("types", entriesCodec)] .typeSystem true).accepts
      ts.toValue = true := by simp [accepts, toValue]
  show (Codec.struct "TypeSystem" [("types", entriesCodec)] .typeSystem true).write ts.toValue =
    .ok p ↔ _
  rw [Codec.write.eq_def]
  simp only [haccepts, Bool.not_true, Bool.and_false, Bool.false_eq_true, if_false, writeFields,
    htypes]
  simp [bind_eq_ok]

/-- The codec of type systems is canonical. -/
@[simp] theorem canonical_codec : Canonical codec where
  write_eq_ok := by
    intro v p h
    obtain ⟨ts, -, -, rfl, hp⟩ := encodes_codec_iff.1 h
    exact ts.encode_eq.2 (canonical_entriesCodec.write_eq_ok hp)
  separates := by
    intro v w p q hv hw h
    obtain ⟨ts, -, -, rfl, hp⟩ := encodes_codec_iff.1 hv
    obtain ⟨ts', -, -, rfl, hq⟩ := encodes_codec_iff.1 hw
    refine canonical_entriesCodec.separates hp hq ?_
    simpa [toValue, entriesValue, Value.Alike.record_iff, Value.Alike.Fields] using h

/-- A well-formed system has canonical bytes, which encode the sorted system. -/
theorem WellFormed.exists_encoding (h : ts.WellFormed) :
    ∃ p, ts.encode = .ok p ∧ codec.Encodes ts.sorted.toValue p := by
  have hsorted := h.of_perm ts.entries_sorted_perm
  have hencoded : ∀ e ∈ ts.sorted.entries, ∃ x : (SemId × TypeDef) × Octets,
      x.1 = e ∧ TypeDef.codec.Encodes x.1.2.toValue x.2 := by
    intro e he
    obtain ⟨p, hp⟩ := hsorted.encodes he
    exact ⟨(e, p), rfl, TypeDef.encodes_of_encode_eq_ok (hsorted.normal e he) hp⟩
  obtain ⟨es, hes, hentries⟩ := exists_eq_map hencoded
  have hascending := ascending_sorted h.nodup
  rw [Ascending, hes, List.pairwise_map] at hascending
  let parts := es.map fun e =>
    (((Value.id .sem e.1.1, e.1.1.octets), (e.1.2.toValue, e.2)) : (Value × Octets) × (Value × Octets))
  have hencodes : entriesCodec.Encodes ts.sorted.entriesValue
      (Bounds.lengthPrefix { min := 0, max := capacity } parts.length ++
        (parts.map fun e => e.1.2 ++ e.2.2).flatten) := by
    refine (encodes_mapping_iff (keyed_id .sem)).2 ⟨parts, ?_, ?_, ?_, ?_, rfl⟩
    · have hsmall := hsorted.small
      rw [size, hes, List.length_map] at hsmall
      simpa [Bounds.admits, parts] using hsmall
    · exact List.forall_mem_map.2 fun e he => ⟨⟨e.1.1, rfl, rfl⟩, hentries e he⟩
    · rw [List.map_map, List.pairwise_map]
      exact hascending
    · simp [entriesValue, hes, parts, Function.comp_def]
  refine ⟨_, ts.encode_eq.2 (Draft.write_mapping_of_perm (ts.entries_sorted_perm.symm.map _)
    (canonical_entriesCodec.write_eq_ok hencodes)), ?_⟩
  exact encodes_codec_iff.2 ⟨_, hsorted, ascending_sorted h.nodup, rfl, hencodes⟩

/-- A well-formed system is decoded from its bytes. -/
theorem WellFormed.exists_decode (h : ts.WellFormed) :
    ∃ p, ts.encode = .ok p ∧ decode p = .ok ts.sorted := by
  obtain ⟨p, hp, hdecode⟩ := h.exists_encoding
  refine ⟨p, hp, bind_eq_ok.2 ⟨_, decode_eq_ok.2 hdecode, ?_⟩⟩
  rw [ofRecord?_toValue (h.of_perm ts.entries_sorted_perm).normal]
  rfl

/-- A decoded system is well formed. -/
theorem wellFormed_of_decode {p : Octets} (h : decode p = .ok ts) : ts.WellFormed := by
  obtain ⟨v, hv, h⟩ := bind_eq_ok.1 h
  obtain ⟨loaded, hloaded, -, rfl, -⟩ := encodes_codec_iff.1 (decode_eq_ok.1 hv)
  rw [ofRecord?_toValue hloaded.normal] at h
  cases h
  exact hloaded

/-- The codec of type systems recovers well-formed systems. -/
theorem WellFormed.recovers (h : ts.WellFormed) : Recovers codec ts.toValue := by
  intro p hp
  obtain ⟨q, hq, hencodes⟩ := h.exists_encoding
  obtain rfl : q = p := Except.ok.inj (hq.symm.trans hp)
  have hentries : ts.entriesValue.Alike ts.sorted.entriesValue :=
    .map_of_perm (ts.entries_sorted_perm.symm.map _)
  refine ⟨_, hencodes, ?_⟩
  simpa [toValue, entriesValue, Value.Alike.record_iff, Value.Alike.Fields] using hentries

end TypeSystem

end StrictContract
