import StrictContract.Proofs.Codec.Reordering
import StrictContract.Proofs.TypeSystem.Binding

/-! # Reordering type systems — the order of insertions

The definitions of a type system stand in the order in which they came, and are written in ascending
order of their ids. So systems with the same definitions have the same bytes. In two grown systems
with the same ids, the definitions are the same, too, unless two of them **clash**: they stand under
one id, and their bytes collide. In particular the bytes do not depend on the order in which the same
drafts were inserted. -/

namespace StrictContract.TypeSystem

open Codec

variable {ts ts' : TypeSystem}

/-! ## Systems with the same definitions -/

/-- Type systems with the same definitions are reordered. -/
theorem reordered_of_perm (h : ts.entries.Perm ts'.entries) :
    codec.Reordered ts.toValue ts'.toValue := by
  have hentries : entriesCodec.Reordered ts.entriesValue ts'.entriesValue :=
    reordered_map_of_perm (h.map fun e => (Value.id .sem e.1, e.2.toValue))
  have hfields : ReorderedFields [("types", entriesCodec)] [("types", ts.entriesValue)]
      [("types", ts'.entriesValue)] := ⟨rfl, rfl, hentries, trivial⟩
  exact reordered_record (by decide) rfl (hfields.of_lookup (by decide))

/-- Type systems with the same definitions have the same bytes. -/
theorem encode_eq_ok_of_perm (h : ts.entries.Perm ts'.entries) (p : Octets) :
    ts.encode = .ok p ↔ ts'.encode = .ok p :=
  (reordered_of_perm h).write_eq_ok p

/-- Two systems **clash** when they hold, under one id, definitions that collide. -/
def Clash (ts ts' : TypeSystem) : Prop :=
  ∃ sid d e, ts.get? sid = some d ∧ ts'.get? sid = some e ∧
    Collide .sem d.toDraft.encode e.toDraft.encode

/-- Systems with the same ids have the same definitions, or they clash. -/
theorem WellFormed.perm_or_clash (h : ts.WellFormed) (h' : ts'.WellFormed)
    (hids : ∀ sid, ts.contains sid = true ↔ ts'.contains sid = true) :
    ts.entries.Perm ts'.entries ∨ ts.Clash ts' := by
  by_cases hclash : ts.Clash ts'
  · exact .inr hclash
  · -- without a clash, an id that both systems hold has the same definition in both
    have hagree : ∀ sid d e, ts.get? sid = some d → ts'.get? sid = some e → d = e := by
      intro sid d e hd he
      rcases h.eq_or_collide h' hd he with hsame | hcollide
      · exact hsame
      · exact absurd ⟨sid, d, e, hd, he, hcollide⟩ hclash
    refine .inl ((List.perm_ext_iff_of_nodup (nodup_of_keys h.nodup) (nodup_of_keys h'.nodup)).2 ?_)
    rintro ⟨sid, d⟩
    rw [← h.get?_eq_some, ← h'.get?_eq_some]
    constructor
    · intro hd
      obtain ⟨e, he⟩ := Option.isSome_iff_exists.1 ((hids sid).1 (Option.isSome_iff_exists.2 ⟨d, hd⟩))
      rwa [hagree sid d e hd he]
    · intro he
      obtain ⟨d', hd⟩ := Option.isSome_iff_exists.1 ((hids sid).2 (Option.isSome_iff_exists.2 ⟨d, he⟩))
      rwa [← hagree sid d' d hd he]

/-! ## Insertions -/

/-- Inserts drafts one after the other. -/
def insertAll : TypeSystem → List Draft → Except Failure TypeSystem
  | ts, [] => .ok ts
  | ts, d :: ds => do
    let (_, ts') ← ts.insert d
    insertAll ts' ds

/-- After an insertion, a system holds what it held, and the id of the draft. -/
theorem contains_insert_iff {d : Draft} {sid x : SemId} (h : ts.insert d = .ok (sid, ts')) :
    ts'.contains x = true ↔ ts.contains x = true ∨ d.semId = .ok x := by
  obtain ⟨-, -, hsid, ⟨hin, rfl⟩ | ⟨known, -, -, -, rfl⟩⟩ := insert_eq_ok h
  · rw [hsid, Except.ok.injEq]
    constructor
    · exact .inl
    · rintro (hx | rfl)
      · exact hx
      · exact hin
  · rw [hsid, Except.ok.injEq, contains_iff, contains_iff, List.map_append, List.mem_append,
      List.map_singleton, List.mem_singleton, @eq_comm _ x]

/-- Insertions keep a system well formed. -/
theorem WellFormed.insertAll (h : ts.WellFormed) {ds : List Draft}
    (hds : ts.insertAll ds = .ok ts') : ts'.WellFormed := by
  induction ds generalizing ts with
  | nil =>
    cases hds
    exact h
  | cons d ds ih =>
    obtain ⟨⟨sid, mid⟩, hd, hrest⟩ := bind_eq_ok.1 hds
    exact ih (h.insert hd) hrest

/-- After insertions, a system holds what it held, and the ids of the drafts. -/
theorem contains_insertAll_iff {ds : List Draft} {x : SemId} (hds : ts.insertAll ds = .ok ts') :
    ts'.contains x = true ↔ ts.contains x = true ∨ ∃ d ∈ ds, d.semId = .ok x := by
  induction ds generalizing ts with
  | nil =>
    cases hds
    simp
  | cons d ds ih =>
    obtain ⟨⟨sid, mid⟩, hd, hrest⟩ := bind_eq_ok.1 hds
    rw [ih hrest, contains_insert_iff hd, or_assoc]
    simp only [List.mem_cons, exists_eq_or_imp]

/-- Systems in which the same drafts were inserted in two orders have the same definitions, or they
clash. -/
theorem WellFormed.insertAll_perm_or_clash {start : TypeSystem} (h : start.WellFormed)
    {ds es : List Draft} (hperm : ds.Perm es) (hds : start.insertAll ds = .ok ts)
    (hes : start.insertAll es = .ok ts') : ts.entries.Perm ts'.entries ∨ ts.Clash ts' := by
  -- which ids a system holds does not depend on the order
  refine (h.insertAll hds).perm_or_clash (h.insertAll hes) fun sid => ?_
  rw [contains_insertAll_iff hds, contains_insertAll_iff hes]
  simp only [hperm.mem_iff]

/-! ### Drafts without references -/

/-- A draft **stands alone** if it is valid, has an id and is a definition without references. -/
structure StandsAlone (d : Draft) : Prop where
  valid : d.validate = .ok ()
  references : d.references = []
  named : ∃ sid, d.semId = .ok sid
  known : ∃ known, d.definition? = some known

/-- A draft that stands alone can be inserted into every system with room. -/
theorem StandsAlone.exists_insert {d : Draft} (h : StandsAlone d) (hroom : ts.size < capacity) :
    ∃ sid ts', ts.insert d = .ok (sid, ts') ∧ ts'.size ≤ ts.size + 1 := by
  obtain ⟨sid, hsid⟩ := h.named
  obtain ⟨ts', hinsert⟩ := TypeSystem.exists_insert h.valid (h.references ▸ nofun) hsid
    fun _ => hroom
  refine ⟨sid, ts', hinsert, ?_⟩
  obtain ⟨-, -, -, ⟨-, rfl⟩ | ⟨known, -, -, -, rfl⟩⟩ := insert_eq_ok hinsert
  · exact Nat.le_succ _
  · rw [size, List.length_append]
    exact Nat.le_refl _

/-- Drafts that stand alone can be inserted one after the other while there is room. -/
theorem exists_insertAll {ds : List Draft} (h : ∀ d ∈ ds, StandsAlone d)
    (hroom : ts.size + ds.length ≤ capacity) : ∃ ts', ts.insertAll ds = .ok ts' := by
  induction ds generalizing ts with
  | nil => exact ⟨ts, rfl⟩
  | cons d ds ih =>
    rw [List.forall_mem_cons] at h
    rw [List.length_cons] at hroom
    have hfirst : ∃ sid mid, ts.insert d = .ok (sid, mid) ∧ mid.size ≤ ts.size + 1 :=
      h.1.exists_insert (by omega)
    obtain ⟨sid, mid, hd, hsize⟩ := hfirst
    have hrest : ∃ ts', mid.insertAll ds = .ok ts' := ih h.2 (by omega)
    obtain ⟨ts', hds⟩ := hrest
    exact ⟨ts', bind_eq_ok.2 ⟨_, hd, hds⟩⟩

end StrictContract.TypeSystem
