import StrictContract.Proofs.Table
import StrictContract.Proofs.TypeDef
import StrictContract.TypeSystem

/-! # Well-formed type systems — what every operation keeps

A type system is **well formed** if every definition in it is valid, stands under its own id, and
refers only to definitions that are there, too. Each operation on type systems has one lemma here:
it takes well-formed systems to well-formed systems. What a growing system gains stands behind what it
had, so that no definition is changed or lost. -/

namespace StrictContract

namespace TypeSystem

variable {ts other : TypeSystem}

/-! ## What a type system holds -/

/-- A type system holds the ids of its entries. -/
theorem contains_iff {sid : SemId} : ts.contains sid = true ↔ sid ∈ ts.entries.map Prod.fst :=
  isSome_lookup

/-- A **well-formed** type system. -/
structure WellFormed (ts : TypeSystem) : Prop where
  /-- No id occurs twice. -/
  nodup : (ts.entries.map Prod.fst).Nodup
  /-- Every definition stands under its own id. -/
  named : ∀ e ∈ ts.entries, e.2.toDraft.semId = .ok e.1
  /-- Every definition obeys the rules. -/
  valid : ∀ e ∈ ts.entries, e.2.toDraft.validate = .ok ()
  /-- Every reference leads to a definition. -/
  closed : ∀ e ∈ ts.entries, ∀ ref ∈ e.2.references, ts.contains ref = true
  /-- The definitions do not exceed the capacity. -/
  small : ts.size ≤ capacity
  /-- The variants of unions ascend. -/
  normal : ∀ e ∈ ts.entries, e.2.Normal

namespace WellFormed

/-- The definition of an id is that of its entry. -/
theorem get?_eq_some (h : ts.WellFormed) {sid : SemId} {d : TypeDef} :
    ts.get? sid = some d ↔ (sid, d) ∈ ts.entries :=
  lookup_eq_some_iff_mem h.nodup

/-- Every definition has an encoding. -/
theorem encodes (h : ts.WellFormed) {e : SemId × TypeDef} (he : e ∈ ts.entries) :
    ∃ p, e.2.toDraft.encode = .ok p := by
  obtain ⟨p, hp, -⟩ := bind_eq_ok.1 (h.named e he)
  exact ⟨p, hp⟩

end WellFormed

/-- The type system without definitions is well formed. -/
theorem wellFormed_empty : empty.WellFormed where
  nodup := .nil
  named := nofun
  valid := nofun
  closed := nofun
  small := Nat.zero_le _
  normal := nofun

/-! ## Growing -/

/-- Different items are still different with a new one behind them. -/
theorem nodup_concat {α : Type} {items : List α} {a : α} (h : items.Nodup) (ha : a ∉ items) :
    (items ++ [a]).Nodup := by
  rw [List.nodup_append]
  refine ⟨h, by simp, ?_⟩
  intro b hb c hc hbc
  rw [List.mem_singleton] at hc
  exact ha (hc ▸ hbc ▸ hb)

/-- A type system **extends** another one that it starts with. -/
def Extends (ts ts' : TypeSystem) : Prop := ts.entries <+: ts'.entries

namespace Extends

variable {ts' ts'' : TypeSystem}

theorem refl (ts : TypeSystem) : ts.Extends ts := List.prefix_rfl

theorem trans (h : ts.Extends ts') (h' : ts'.Extends ts'') : ts.Extends ts'' := List.IsPrefix.trans h h'

/-- What a system holds is found in every system that extends it. -/
theorem get?_eq_some (h : ts.Extends ts') {sid : SemId} {d : TypeDef} (hd : ts.get? sid = some d) :
    ts'.get? sid = some d := by
  obtain ⟨added, hadded⟩ := h
  rw [get?, ← hadded, List.lookup_append, show ts.entries.lookup sid = some d from hd]
  rfl

theorem contains (h : ts.Extends ts') {sid : SemId} (hsid : ts.contains sid = true) :
    ts'.contains sid = true := by
  obtain ⟨d, hd⟩ := Option.isSome_iff_exists.1 hsid
  exact Option.isSome_iff_exists.2 ⟨d, h.get?_eq_some hd⟩

end Extends

/-- A system with room takes one more entry. -/
theorem add_eq_ok {sid : SemId} {d : TypeDef} {ts' : TypeSystem} :
    ts.add sid d = .ok ts' ↔ ts.size < capacity ∧ ts' = ⟨ts.entries ++ [(sid, d)]⟩ := by
  unfold add
  by_cases h : ts.size < capacity
  · rw [if_pos h, Except.ok.injEq]
    exact ⟨fun he => ⟨h, he.symm⟩, fun he => he.2.symm⟩
  · rw [if_neg h]
    exact ⟨fun he => absurd he fail_ne_ok, fun he => absurd he.1 h⟩

/-- No reference is missing when the system holds all of them. -/
theorem missing?_eq_none {d : Draft} :
    ts.missing? d = none ↔ ∀ ref ∈ d.references, ts.contains ref = true := by
  simp [missing?]

/-- A new definition that is valid, stands under its own id and refers to what is there can be
appended. -/
theorem WellFormed.append (h : ts.WellFormed) {sid : SemId} {d : TypeDef}
    (hnew : ts.contains sid = false) (hsid : d.toDraft.semId = .ok sid)
    (hvalid : d.toDraft.validate = .ok ()) (hrefs : ∀ ref ∈ d.references, ts.contains ref = true)
    (hroom : ts.size < capacity) (hnormal : d.Normal) :
    WellFormed ⟨ts.entries ++ [(sid, d)]⟩ := by
  have hextends : ts.Extends ⟨ts.entries ++ [(sid, d)]⟩ := List.prefix_append ..
  have hforall : ∀ {P : SemId × TypeDef → Prop}, (∀ e ∈ ts.entries, P e) → P (sid, d) →
      ∀ e ∈ ts.entries ++ [(sid, d)], P e := by
    intro P hold hlast e he
    rcases List.mem_append.1 he with he | he
    · exact hold e he
    · rwa [List.mem_singleton.1 he]
  constructor
  · rw [List.map_append, List.map_singleton]
    exact nodup_concat h.nodup fun hmem => Bool.eq_false_iff.1 hnew (contains_iff.2 hmem)
  · exact hforall h.named hsid
  · exact hforall h.valid hvalid
  · exact hforall (fun e he ref href => hextends.contains (h.closed e he ref href))
      fun ref href => hextends.contains (hrefs ref href)
  · show (ts.entries ++ [(sid, d)]).length ≤ capacity
    rw [List.length_append]
    exact hroom
  · exact hforall h.normal hnormal

/-- An insertion either finds the definition in the system or appends it. -/
theorem insert_eq_ok {d : Draft} {sid : SemId} {ts' : TypeSystem} (h : ts.insert d = .ok (sid, ts')) :
    d.validate = .ok () ∧ (∀ ref ∈ d.references, ts.contains ref = true) ∧ d.semId = .ok sid ∧
      ((ts.contains sid = true ∧ ts' = ts) ∨
        ∃ known, ts.contains sid = false ∧ d.definition? = some known ∧ ts.size < capacity ∧
          ts' = ⟨ts.entries ++ [(sid, known)]⟩) := by
  unfold insert at h
  obtain ⟨⟨⟩, hvalid, h⟩ := bind_eq_ok.1 h
  cases hmissing : ts.missing? d with
  | some ref =>
    rw [hmissing] at h
    cases h
  | none =>
    rw [hmissing] at h
    obtain ⟨sid', hsid, h⟩ := bind_eq_ok.1 h
    by_cases hin : ts.contains sid' = true
    · rw [if_pos hin] at h
      cases h
      exact ⟨hvalid, missing?_eq_none.1 hmissing, hsid, .inl ⟨hin, rfl⟩⟩
    · rw [if_neg hin] at h
      cases hknown : d.definition? with
      | none =>
        rw [hknown] at h
        cases h
      | some known =>
        rw [hknown] at h
        obtain ⟨added, hadd, h⟩ := bind_eq_ok.1 h
        cases h
        obtain ⟨hroom, rfl⟩ := add_eq_ok.1 hadd
        exact ⟨hvalid, missing?_eq_none.1 hmissing, hsid,
          .inr ⟨known, Bool.eq_false_iff.2 hin, rfl, hroom, rfl⟩⟩

/-- A valid draft with an id is inserted behind those that it refers to, if there is room for it. -/
theorem exists_insert {d : Draft} {sid : SemId} (hvalid : d.validate = .ok ())
    (hrefs : ∀ ref ∈ d.references, ts.contains ref = true) (hsid : d.semId = .ok sid)
    (hroom : ts.contains sid = false → ts.size < capacity) : ∃ ts', ts.insert d = .ok (sid, ts') := by
  obtain ⟨p, hp, -⟩ := bind_eq_ok.1 hsid
  obtain ⟨known, hknown, -⟩ := Draft.exists_definition?_of_encode hp
  have hinsert : ts.insert d =
      if ts.contains sid = true then .ok (sid, ts) else do return (sid, ← ts.add sid known) := by
    rw [insert, hvalid, missing?_eq_none.2 hrefs, hsid, hknown]
    rfl
  cases hin : ts.contains sid with
  | true => exact ⟨ts, by rw [hinsert, if_pos hin]⟩
  | false =>
    rw [hin, if_neg Bool.false_ne_true, add_eq_ok.2 ⟨hroom hin, rfl⟩] at hinsert
    exact ⟨_, hinsert⟩

/-- Inserting a draft extends a system. -/
theorem extends_of_insert {d : Draft} {sid : SemId} {ts' : TypeSystem}
    (h : ts.insert d = .ok (sid, ts')) : ts.Extends ts' := by
  obtain ⟨-, -, -, ⟨-, rfl⟩ | ⟨known, -, -, -, rfl⟩⟩ := insert_eq_ok h
  · exact .refl _
  · exact List.prefix_append ..

/-- The id that an insertion gives is that of a definition in the system. -/
theorem contains_of_insert {d : Draft} {sid : SemId} {ts' : TypeSystem}
    (h : ts.insert d = .ok (sid, ts')) : ts'.contains sid = true := by
  obtain ⟨-, -, -, ⟨hin, rfl⟩ | ⟨known, -, -, -, rfl⟩⟩ := insert_eq_ok h
  · exact hin
  · exact contains_iff.2 (by simp)

/-- An insertion adds at most one definition. -/
theorem size_of_insert {d : Draft} {sid : SemId} {ts' : TypeSystem}
    (h : ts.insert d = .ok (sid, ts')) : ts'.size ≤ ts.size + 1 := by
  obtain ⟨-, -, -, ⟨-, rfl⟩ | ⟨known, -, -, -, rfl⟩⟩ := insert_eq_ok h
  · exact Nat.le_succ _
  · exact Nat.le_of_eq (by simp [size])

/-- Inserting a draft keeps a system well formed. -/
theorem WellFormed.insert (h : ts.WellFormed) {d : Draft} {sid : SemId} {ts' : TypeSystem}
    (hd : ts.insert d = .ok (sid, ts')) : ts'.WellFormed := by
  obtain ⟨hvalid, hrefs, hsid, ⟨-, rfl⟩ | ⟨known, hnew, hknown, hroom, rfl⟩⟩ := insert_eq_ok hd
  · exact h
  · obtain ⟨p, hp, hsid⟩ := bind_eq_ok.1 hsid
    obtain ⟨hnormal, hencode⟩ := Draft.encode_of_definition? hknown hp
    refine h.append hnew ?_ (Draft.validate_of_definition? hknown hvalid) ?_ hroom hnormal
    · exact bind_eq_ok.2 ⟨p, hencode, hsid⟩
    · exact fun ref href => hrefs ref ((Draft.references_of_definition? hknown).mem_iff.1 href)

/-! ## Merging -/

/-- Merging appends just the entries whose ids are new. -/
theorem mergeEntries_eq_ok {rest : List (SemId × TypeDef)} {added n : Nat} {ts' : TypeSystem}
    (h : Growth.mergeEntries rest added ts = (.ok n, ts')) :
    ts.Extends ts' ∧ (∀ e ∈ rest, ts'.contains e.1 = true) ∧
      (∀ e ∈ ts'.entries, e ∈ ts.entries ∨ e ∈ rest) ∧
      ((ts.entries.map Prod.fst).Nodup → (ts'.entries.map Prod.fst).Nodup) ∧
      (ts.size ≤ capacity → ts'.size ≤ capacity) := by
  induction rest generalizing ts added with
  | nil =>
    cases h
    exact ⟨.refl _, nofun, fun e he => .inl he, id, id⟩
  | cons e rest ih =>
    obtain ⟨sid, d⟩ := e
    rw [Growth.mergeEntries] at h
    dsimp only at h
    by_cases hin : ts.contains sid = true
    · rw [if_pos hin] at h
      obtain ⟨hextends, hrest, hmem, hnodup, hsmall⟩ := ih h
      exact ⟨hextends, List.forall_mem_cons.2 ⟨hextends.contains hin, hrest⟩,
        fun x hx => (hmem x hx).imp_right (List.mem_cons_of_mem _), hnodup, hsmall⟩
    · rw [if_neg hin] at h
      cases hadd : ts.add sid d with
      | error e =>
        rw [hadd] at h
        cases h
      | ok ts'' =>
        rw [hadd] at h
        obtain ⟨hroom, rfl⟩ := add_eq_ok.1 hadd
        obtain ⟨hextends, hrest, hmem, hnodup, hsmall⟩ := ih h
        refine ⟨.trans (List.prefix_append ..) hextends,
          List.forall_mem_cons.2 ⟨hextends.contains (contains_iff.2 (by simp)), hrest⟩, ?_, ?_, ?_⟩
        · intro x hx
          rcases hmem x hx with hx | hx
          · rcases List.mem_append.1 hx with hx | hx
            · exact .inl hx
            · exact .inr (List.mem_singleton.1 hx ▸ List.mem_cons_self ..)
          · exact .inr (List.mem_cons_of_mem _ hx)
        · intro hold
          refine hnodup ?_
          rw [List.map_append, List.map_singleton]
          exact nodup_concat hold fun hmem => hin (contains_iff.2 hmem)
        · intro _
          refine hsmall ?_
          show (ts.entries ++ [(sid, d)]).length ≤ capacity
          rw [List.length_append]
          exact hroom

/-- There is room for an id that is new, if all ids together do not exceed the capacity. -/
theorem size_lt_capacity {ids : List SemId} (hids : ids.length ≤ capacity)
    (hnodup : (ts.entries.map Prod.fst).Nodup) (hts : ∀ e ∈ ts.entries, e.1 ∈ ids) {sid : SemId}
    (hsid : sid ∈ ids) (hnew : sid ∉ ts.entries.map Prod.fst) : ts.size < capacity := by
  have hsubset : ts.entries.map Prod.fst ++ [sid] ⊆ ids := by
    refine List.append_subset.2 ⟨?_, List.forall_mem_singleton.2 hsid⟩
    exact fun x hx => List.forall_mem_map.2 hts x hx
  have hlength := (nodup_concat hnodup hnew).length_le_of_subset hsubset
  rw [List.length_append, List.length_map, List.length_singleton] at hlength
  exact Nat.lt_of_lt_of_le hlength hids

/-- Entries can be merged when all ids together do not exceed the capacity. -/
theorem exists_mergeEntries {ids : List SemId} (hids : ids.length ≤ capacity)
    {rest : List (SemId × TypeDef)} (hrest : ∀ e ∈ rest, e.1 ∈ ids) (added : Nat)
    (hnodup : (ts.entries.map Prod.fst).Nodup) (hts : ∀ e ∈ ts.entries, e.1 ∈ ids) :
    ∃ n ts', Growth.mergeEntries rest added ts = (.ok n, ts') := by
  induction rest generalizing ts added with
  | nil => exact ⟨added, ts, rfl⟩
  | cons e rest ih =>
    obtain ⟨sid, d⟩ := e
    rw [List.forall_mem_cons] at hrest
    rw [Growth.mergeEntries]
    dsimp only
    by_cases hin : ts.contains sid = true
    · rw [if_pos hin]
      exact ih hrest.2 added hnodup hts
    · have hnew : sid ∉ ts.entries.map Prod.fst := fun hmem => hin (contains_iff.2 hmem)
      have hroom := size_lt_capacity hids hnodup hts hrest.1 hnew
      rw [if_neg hin, add_eq_ok.2 ⟨hroom, rfl⟩]
      refine ih hrest.2 (added + 1) ?_ ?_
      · rw [List.map_append]
        exact nodup_concat hnodup hnew
      · exact List.forall_mem_append.2 ⟨hts, by simpa using hrest.1⟩

/-- Types for which there is room are merged. -/
theorem exists_merge_of_room {ts other : TypeSystem} (h : ts.size + other.size ≤ capacity) :
    ∃ n ts', Growth.merge other ts = (.ok n, ts') ∧ ts'.size ≤ ts.size + other.size := by
  have hentries : ∀ (rest : List (SemId × TypeDef)) (added : Nat) (ts : TypeSystem),
      ts.size + rest.length ≤ capacity → ∃ n ts', Growth.mergeEntries rest added ts = (.ok n, ts') ∧
        ts'.size ≤ ts.size + rest.length := by
    intro rest
    induction rest with
    | nil => exact fun added ts _ => ⟨added, ts, rfl, Nat.le_refl _⟩
    | cons e rest ih =>
      obtain ⟨sid, d⟩ := e
      intro added ts hroom
      rw [List.length_cons] at hroom
      rw [Growth.mergeEntries, List.length_cons]
      dsimp only
      split
      · obtain ⟨n, ts', hrun, hsize⟩ := ih added ts (by omega)
        exact ⟨n, ts', hrun, by omega⟩
      · have hsize : (⟨ts.entries ++ [(sid, d)]⟩ : TypeSystem).size = ts.size + 1 := by simp [size]
        rw [add_eq_ok.2 ⟨by omega, rfl⟩]
        obtain ⟨n, ts', hrun, hsize'⟩ := ih (added + 1) ⟨ts.entries ++ [(sid, d)]⟩ (by omega)
        exact ⟨n, ts', hrun, by omega⟩
  exact hentries other.entries 0 ts h

/-- Merging a well-formed system into a well-formed one keeps it well formed. -/
theorem WellFormed.merge (h : ts.WellFormed) (hother : other.WellFormed) {n : Nat}
    {ts' : TypeSystem} (hm : Growth.merge other ts = (.ok n, ts')) : ts'.WellFormed := by
  obtain ⟨hextends, hrest, hmem, hnodup, hsmall⟩ := mergeEntries_eq_ok hm
  have hforall : ∀ {P : SemId × TypeDef → Prop}, (∀ e ∈ ts.entries, P e) →
      (∀ e ∈ other.entries, P e) → ∀ e ∈ ts'.entries, P e := by
    intro P hold hnew e he
    exact (hmem e he).elim (hold e) (hnew e)
  refine ⟨hnodup h.nodup, hforall h.named hother.named, hforall h.valid hother.valid, ?_,
    hsmall h.small, hforall h.normal hother.normal⟩
  -- what an entry of the other system refers to has been merged, too
  refine hforall (fun e he ref href => hextends.contains (h.closed e he ref href)) ?_
  intro e he ref href
  obtain ⟨x, hx, rfl⟩ := List.mem_map.1 (contains_iff.1 (hother.closed e he ref href))
  exact hrest x hx

/-! ## Loading -/

/-- A draft is accepted under its own id when it obeys the rules. -/
theorem checkCarried_eq_ok {sid : SemId} {d : Draft} :
    checkCarried sid d = .ok () ↔ d.validate = .ok () ∧ d.semId = .ok sid := by
  rw [checkCarried]
  simp only [bind_eq_ok, inside_eq_ok]
  constructor
  · rintro ⟨_, hvalid, actual, hactual, h⟩
    split at h
    · cases h
    · rename_i hne
      exact ⟨hvalid, by rw [hactual, Decidable.of_not_not hne]⟩
  · rintro ⟨hvalid, hsid⟩
    exact ⟨(), hvalid, sid, hsid, if_neg (not_not_intro rfl)⟩

/-- A draft is closed when all that it refers to is loaded. -/
theorem checkClosed_eq_ok {sids : List SemId} {sid : SemId} {d : Draft} :
    checkClosed sids sid d = .ok () ↔ ∀ ref ∈ d.references, ref ∈ sids := by
  unfold checkClosed
  cases hfind : d.references.find? fun ref => !sids.contains ref with
  | none => simpa using hfind
  | some ref =>
    have hmem := List.mem_of_find?_eq_some hfind
    have hnot := List.find?_some hfind
    simp only [reduceCtorEq, false_iff]
    intro h
    simp [h ref hmem] at hnot

/-- A draft is loaded as the definition that it is. -/
theorem loadedEntry_eq_ok {sid : SemId} {d : Draft} {e : SemId × TypeDef} :
    loadedEntry sid d = .ok e ↔ e.1 = sid ∧ d.definition? = some e.2 := by
  unfold loadedEntry
  cases d.definition? with
  | none => simp
  | some known =>
    rw [Except.ok.injEq, Option.some.injEq, Prod.ext_iff]
    exact ⟨fun h => ⟨h.1.symm, h.2⟩, fun h => ⟨h.1.symm, h.2⟩⟩

/-- Drafts are loaded when each obeys the rules, is carried under its own id and refers to loaded
drafts only. -/
theorem load_eq_ok {drafts : List (SemId × Draft)} :
    load drafts = .ok ts ↔ drafts.length ≤ capacity ∧
      (∀ x ∈ drafts, x.2.validate = .ok () ∧ x.2.semId = .ok x.1) ∧
      (∀ x ∈ drafts, ∀ ref ∈ x.2.references, ref ∈ drafts.map Prod.fst) ∧
      ∃ ps : List ((SemId × Draft) × (SemId × TypeDef)), drafts = ps.map Prod.fst ∧
        (∀ q ∈ ps, q.2.1 = q.1.1 ∧ q.1.2.definition? = some q.2.2) ∧
        ts = ⟨(ps.map Prod.snd).mergeSort fun a b => a.1.le b.1⟩ := by
  unfold load
  simp only [fail]
  rw [unless_eq_ok, bind_eq_ok]
  simp only [bind_eq_ok, forIn_eq_ok, pure_eq_ok, mapM_eq_ok, checkCarried_eq_ok, checkClosed_eq_ok,
    loadedEntry_eq_ok, Nat.not_lt]
  constructor
  · rintro ⟨hsmall, _, hvalid, _, hclosed, _, ⟨ps, hdrafts, rfl, hps⟩, rfl⟩
    exact ⟨hsmall, hvalid, hclosed, ps, hdrafts, hps, rfl⟩
  · rintro ⟨hsmall, hvalid, hclosed, ps, hdrafts, hps, rfl⟩
    exact ⟨hsmall, ⟨⟩, hvalid, ⟨⟩, hclosed, _, ⟨ps, hdrafts, rfl, hps⟩, rfl⟩

/-- A system that is loaded from drafts under different ids is well formed. -/
theorem wellFormed_of_load {drafts : List (SemId × Draft)} (hnodup : (drafts.map Prod.fst).Nodup)
    (h : load drafts = .ok ts) : ts.WellFormed := by
  obtain ⟨hsmall, hvalid, hclosed, ps, rfl, hps, rfl⟩ := load_eq_ok.1 h
  rw [List.forall_mem_map] at hvalid hclosed
  have hkeys : (ps.map Prod.snd).map Prod.fst = (ps.map Prod.fst).map Prod.fst := by
    rw [List.map_map, List.map_map]
    exact List.map_congr_left fun q hq => (hps q hq).1
  have hperm := List.mergeSort_perm (ps.map Prod.snd) fun a b : SemId × TypeDef => a.1.le b.1
  have hforall : ∀ {P : SemId × TypeDef → Prop}, (∀ q ∈ ps, P q.2) →
      ∀ e ∈ (ps.map Prod.snd).mergeSort fun a b => a.1.le b.1, P e := by
    intro P hP e he
    obtain ⟨q, hq, rfl⟩ := List.mem_map.1 (hperm.mem_iff.1 he)
    exact hP q hq
  constructor
  · exact (hperm.map Prod.fst).nodup_iff.2 (hkeys ▸ hnodup)
  · refine hforall fun q hq => ?_
    obtain ⟨p, hp, hsid⟩ := bind_eq_ok.1 (hvalid q hq).2
    rw [(hps q hq).1]
    exact bind_eq_ok.2 ⟨p, (Draft.encode_of_definition? (hps q hq).2 hp).2, hsid⟩
  · exact hforall fun q hq => Draft.validate_of_definition? (hps q hq).2 (hvalid q hq).1
  · refine hforall fun q hq ref href => ?_
    have hmem := hclosed q hq ref ((Draft.references_of_definition? (hps q hq).2).mem_iff.1 href)
    rw [← hkeys] at hmem
    exact contains_iff.2 ((hperm.map Prod.fst).mem_iff.2 hmem)
  · rw [List.length_map] at hsmall
    rwa [size, hperm.length_eq, List.length_map]
  · refine hforall fun q hq => ?_
    obtain ⟨p, hp, -⟩ := bind_eq_ok.1 (hvalid q hq).2
    exact (Draft.encode_of_definition? (hps q hq).2 hp).1

/-! ## Extracting -/

/-- What is collected stands under different ids. -/
theorem nodup_of_collect {fuel : Nat} {stack : List SemId} {found result : List (SemId × TypeDef)}
    (h : ts.collect fuel stack found = .ok result) (hnodup : (found.map Prod.fst).Nodup) :
    (result.map Prod.fst).Nodup := by
  induction fuel generalizing stack found with
  | zero =>
    cases h
    exact ((List.reverse_perm found).map Prod.fst).nodup_iff.2 hnodup
  | succ fuel ih =>
    cases stack with
    | nil =>
      cases h
      exact ((List.reverse_perm found).map Prod.fst).nodup_iff.2 hnodup
    | cons sid stack =>
      rw [collect] at h
      split at h
      · exact ih h hnodup
      · rename_i hnew
        obtain ⟨d, -, h⟩ := bind_eq_ok.1 h
        refine ih h ?_
        rw [List.map_cons, List.nodup_cons]
        exact ⟨fun hmem => hnew (isSome_lookup.2 hmem), hnodup⟩

/-- What a system reaches from some ids is a well-formed system. -/
theorem wellFormed_of_extract {roots : List SemId} {ts' : TypeSystem}
    (h : ts.extract roots = .ok ts') : ts'.WellFormed := by
  obtain ⟨found, hfound, h⟩ := bind_eq_ok.1 h
  refine wellFormed_of_load ?_ h
  rw [List.map_map]
  exact nodup_of_collect hfound .nil

end TypeSystem

end StrictContract
