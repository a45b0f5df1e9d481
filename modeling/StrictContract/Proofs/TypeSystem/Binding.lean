import StrictContract.Proofs.Binding
import StrictContract.Proofs.TypeSystem.Extraction
import StrictContract.Proofs.TypeSystem.Language

/-! # Binding of type ids — an id determines everything below it

The id of a definition commits to the definition, and the definition contains the ids of all that it
refers to. So an id determines not only its definition but, **reference by reference**, everything
that it reaches: two systems that hold the same id extract the same system from it, and the
definitions at every **path** below it are the same, unless a pair of definitions that both systems
reach from the id collides. -/

namespace StrictContract.TypeSystem

variable {ts ts' : TypeSystem} {sid : SemId}

/-! ## Paths below an id -/

/-- The definition at the end of a **path**, of which every position is one among the references of a
definition. -/
def definitionAt? (ts : TypeSystem) : SemId → List Nat → Option TypeDef
  | sid, [] => ts.get? sid
  | sid, i :: path => do
    let d ← ts.get? sid
    ts.definitionAt? (← d.references[i]?) path

/-- Two systems **collide below** an id: from it both reach some id under which they hold definitions
that collide. -/
def CollideBelow (ts ts' : TypeSystem) (sid : SemId) : Prop :=
  ∃ x d e, ts.Reached [sid] x ∧ ts'.Reached [sid] x ∧ ts.get? x = some d ∧ ts'.get? x = some e ∧
    Collide .sem d.toDraft.encode e.toDraft.encode

/-! ## One definition -/

/-- Definitions in normal form with the same id are the same, or they collide. -/
theorem eq_or_collide_of_semId {d e : TypeDef} (hd : d.Normal) (he : e.Normal)
    (hid : d.toDraft.semId = .ok sid) (hid' : e.toDraft.semId = .ok sid) :
    d = e ∨ Collide .sem d.toDraft.encode e.toDraft.encode := by
  rcases StrictContract.eq_or_collide hid hid' with ⟨p, hp, hq⟩ | hcollide
  · have halike : d.toValue.Alike e.toValue :=
      Codec.Recovers.alike d.toDraft.recovers e.toDraft.recovers hp hq
    exact .inl (TypeDef.eq_of_alike hd he halike)
  · exact .inr hcollide

/-- Two systems hold the same definition under an id, or definitions that collide. -/
theorem WellFormed.eq_or_collide (h : ts.WellFormed) (h' : ts'.WellFormed) {d e : TypeDef}
    (hd : ts.get? sid = some d) (he : ts'.get? sid = some e) :
    d = e ∨ Collide .sem d.toDraft.encode e.toDraft.encode := by
  have hmem := h.get?_eq_some.1 hd
  have hmem' := h'.get?_eq_some.1 he
  exact eq_or_collide_of_semId (h.normal _ hmem) (h'.normal _ hmem') (h.named _ hmem)
    (h'.named _ hmem')

/-! ## Everything below -/

section

variable (hagree : ∀ x, ts.Reached [sid] x → ts'.Reached [sid] x → ts.get? x = ts'.get? x)

include hagree

/-- Where two systems agree on all that both reach, what one reaches the other reaches, too. -/
theorem Reached.transfer {x : SemId} (hx : ts.Reached [sid] x) : ts'.Reached [sid] x := by
  induction hx with
  | root hroot => exact .root hroot
  | step hreached hget href ih =>
    rw [hagree _ hreached ih] at hget
    exact .step ih hget href

/-- Where two systems agree on all that both reach, they have the same definitions at every path. -/
theorem definitionAt?_congr (path : List Nat) {x : SemId} (hx : ts.Reached [sid] x)
    (hx' : ts'.Reached [sid] x) : ts.definitionAt? x path = ts'.definitionAt? x path := by
  have hsame := hagree x hx hx'
  -- the next id of the path is a reference of a shared definition, so both systems reach it
  induction path generalizing x with
  | nil => exact hsame
  | cons i path ih =>
    rw [definitionAt?, definitionAt?, ← hsame]
    cases hget : ts.get? x with
    | none => rfl
    | some d =>
      have hget' : ts'.get? x = some d := hsame.symm.trans hget
      cases href : d.references[i]? with
      | none => simp [href]
      | some ref =>
        have hmem : ref ∈ d.references := List.mem_of_getElem? href
        have hstep := hx.step hget hmem
        have hstep' := hx'.step hget' hmem
        simpa [href] using ih hstep hstep' (hagree ref hstep hstep')

end

/-- Where two systems agree on all that both reach from an id, they extract the same from it. -/
theorem WellFormed.extract_congr (h : ts.WellFormed) (h' : ts'.WellFormed)
    (hsid : ts.contains sid = true) (hsid' : ts'.contains sid = true)
    (hagree : ∀ x, ts.Reached [sid] x → ts'.Reached [sid] x → ts.get? x = ts'.get? x) :
    ∃ part, ts.extract [sid] = .ok part ∧ ts'.extract [sid] = .ok part := by
  have hroot : ∀ root ∈ [sid], ts.contains root = true := by simpa using hsid
  have hroot' : ∀ root ∈ [sid], ts'.contains root = true := by simpa using hsid'
  have hagree' : ∀ x, ts'.Reached [sid] x → ts.Reached [sid] x → ts'.get? x = ts.get? x :=
    fun x hx' hx => (hagree x hx hx').symm
  obtain ⟨part, hpart, -⟩ := h.exists_extract hroot
  refine ⟨part, hpart, ?_⟩
  rw [← hpart]
  refine (h.extract_eq_extract h' hroot hroot' fun x d => ⟨?_, ?_⟩).symm
  · rintro ⟨hx, hget⟩
    have hx' := hx.transfer hagree
    exact ⟨hx', (hagree x hx hx').symm.trans hget⟩
  · rintro ⟨hx', hget⟩
    have hx := hx'.transfer hagree'
    exact ⟨hx, (hagree x hx hx').trans hget⟩

/-- Two systems agree on all that both reach from an id, or they collide below it. -/
theorem WellFormed.agree_or_collideBelow (h : ts.WellFormed) (h' : ts'.WellFormed)
    (hsid : ts.contains sid = true) (hsid' : ts'.contains sid = true) :
    (∀ x, ts.Reached [sid] x → ts'.Reached [sid] x → ts.get? x = ts'.get? x) ∨
      ts.CollideBelow ts' sid := by
  by_cases hcollide : ts.CollideBelow ts' sid
  · exact .inr hcollide
  · refine .inl fun x hx hx' => ?_
    obtain ⟨d, hd⟩ := Option.isSome_iff_exists.1 (h.contains_of_reached (by simpa using hsid) hx)
    obtain ⟨e, he⟩ := Option.isSome_iff_exists.1 (h'.contains_of_reached (by simpa using hsid') hx')
    rcases h.eq_or_collide h' hd he with rfl | hpair
    · exact hd.trans he.symm
    · exact absurd ⟨x, d, e, hx, hx', hd, he, hpair⟩ hcollide

/-- **A type id determines its type.** Two grown systems that hold an id extract the same system from
it, and whatever differs at some path below two ids makes the ids different, unless definitions that
both systems reach from the id collide. -/
theorem extract_determined (h : Grown ts) (h' : Grown ts') :
    (∀ sid, ts.contains sid = true → ts'.contains sid = true →
      (∃ part, ts.extract [sid] = .ok part ∧ ts'.extract [sid] = .ok part) ∨
        ts.CollideBelow ts' sid) ∧
    ∀ sid sid' path, ts.contains sid = true → ts'.contains sid' = true →
      ts.definitionAt? sid path ≠ ts'.definitionAt? sid' path →
      sid ≠ sid' ∨ ts.CollideBelow ts' sid := by
  have hts := h.reachable.wellFormed
  have hts' := h'.reachable.wellFormed
  constructor
  · intro sid hsid hsid'
    rcases hts.agree_or_collideBelow hts' hsid hsid' with hagree | hcollide
    · exact .inl (hts.extract_congr hts' hsid hsid' hagree)
    · exact .inr hcollide
  · intro sid sid' path hsid hsid' hdiffer
    by_cases hsame : sid = sid'
    · subst hsame
      have hroot : ∀ u : TypeSystem, u.Reached [sid] sid :=
        fun u => .root (List.mem_singleton.2 rfl)
      rcases hts.agree_or_collideBelow hts' hsid hsid' with hagree | hcollide
      · exact absurd (definitionAt?_congr hagree path (hroot ts) (hroot ts')) hdiffer
      · exact .inr hcollide
    · exact .inl hsame

/-- The type of lists of truth values is determined by its id, also in a system with one more
definition. -/
theorem extract_determined_list : ∃ sid ts,
    (Codec.list .bool .tiny none).derive empty = (.ok sid, ts) ∧
      ((∃ part, ts.extract [sid] = .ok part ∧
        TypeSystem.extract (Growth.insert TypeDef.unit.toDraft ts).2 [sid] = .ok part) ∨
        ts.CollideBelow (Growth.insert TypeDef.unit.toDraft ts).2 sid) := by
  obtain ⟨sid, ts, hderive, -⟩ := exists_derive_list derive_bool_empty (by decide) .tiny none
  have hgrown : Grown ((Codec.list .bool .tiny none).derive empty).2 := .derive _ .empty
  rw [hderive] at hgrown
  have hextends : ts.Extends (Growth.insert TypeDef.unit.toDraft ts).2 :=
    (Growth.onlyInserts_insert TypeDef.unit.toDraft ts).isExtension
  have hsid := contains_of_derive hderive
  exact ⟨sid, ts, hderive, (extract_determined hgrown (.insert TypeDef.unit.toDraft hgrown)).1 sid hsid
    (hextends.contains hsid)⟩

end StrictContract.TypeSystem
