import StrictContract.Proofs.Codec.Construction
import StrictContract.Proofs.TypeSystem.Describing
import StrictContract.Proofs.TypeSystem.Reachable

/-! # Founded type systems — every definition comes down to definitions without references

A definition can be inserted only after everything that it refers to, so references never lead round
in a circle. An id is **founded** if all the ids that its definition refers to are. Every id that a
grown type system holds is founded, and every founded id has a codec. -/

namespace StrictContract.TypeSystem

variable {u w ts ts' other : TypeSystem} {sid : SemId}

/-- A **founded** id: one with a definition that refers to founded ids only. -/
inductive Founded (ts : TypeSystem) : SemId → Prop
  | mk {sid : SemId} {d : TypeDef} (hget : ts.get? sid = some d)
      (hrefs : ∀ ref ∈ d.references, Founded ts ref) : Founded ts sid

/-- What is founded stays so with more definitions. -/
theorem Founded.mono (h : u.Below w) (hsid : u.Founded sid) : w.Founded sid := by
  induction hsid with
  | mk hget _ ih => exact .mk (h _ _ hget) ih

/-- A system has the definitions of every system that it extends. -/
theorem Extends.below (h : u.Extends w) : u.Below w := fun _ _ => h.get?_eq_some

/-- A type system in which every id is founded. -/
def AllFounded (ts : TypeSystem) : Prop := ∀ sid, ts.contains sid = true → ts.Founded sid

/-! ## What operations keep -/

/-- An insertion keeps all ids founded. -/
theorem AllFounded.insert (h : ts.AllFounded) {d : Draft} (hd : ts.insert d = .ok (sid, ts')) :
    ts'.AllFounded := by
  have hbelow := (extends_of_insert hd).below
  obtain ⟨-, hrefs, -, ⟨-, rfl⟩ | ⟨known, hnew, hknown, -, rfl⟩⟩ := insert_eq_ok hd
  · exact h
  · intro sid' hsid'
    rw [contains_iff, List.map_append, List.mem_append] at hsid'
    rcases hsid' with hsid' | hsid'
    · exact (h sid' (contains_iff.2 hsid')).mono hbelow
    · -- what the new definition refers to was there before, hence founded
      obtain rfl : sid' = sid := List.mem_singleton.1 hsid'
      have hnone : ts.entries.lookup sid' = none :=
        Option.isNone_iff_eq_none.1 (Option.isSome_eq_false_iff.1 hnew)
      refine .mk (d := known) ?_ fun ref href => (h ref (hrefs ref ?_)).mono hbelow
      · rw [get?, List.lookup_append, hnone]
        simp
      · exact (Draft.references_of_definition? hknown).mem_iff.1 href

/-- Insertions keep all ids founded. -/
theorem AllFounded.insertions (h : ts.AllFounded) (hins : Growth.Insertions ts ts') :
    ts'.AllFounded := by
  induction hins with
  | refl => exact h
  | step hd _ ih => exact ih (h.insert hd)

/-- Merging keeps all ids founded: what an id of the other system refers to is merged, too, or was
there before. -/
theorem AllFounded.merge (h : ts.AllFounded) (hother : other.AllFounded)
    (hnodup : (other.entries.map Prod.fst).Nodup) {n : Nat}
    (hm : Growth.merge other ts = (.ok n, ts')) : ts'.AllFounded := by
  obtain ⟨hextends, hrest, hmem, -, -⟩ := mergeEntries_eq_ok hm
  have hold : ∀ sid, ts.contains sid = true → ts'.Founded sid :=
    fun sid hsid => (h sid hsid).mono hextends.below
  have hnew : ∀ sid, other.Founded sid → ts'.Founded sid := by
    intro sid hsid
    -- induction on what founds the id in the other system
    induction hsid with
    | @mk sid d hget _ ih =>
      have hin : ts'.contains sid = true := hrest _ ((lookup_eq_some_iff_mem hnodup).1 hget)
      obtain ⟨d', hd'⟩ := Option.isSome_iff_exists.1 hin
      rcases hmem _ (mem_of_lookup hd') with he | he
      · exact hold sid (contains_iff.2 (List.mem_map_of_mem (f := Prod.fst) he))
      · have hsame := (lookup_eq_some_iff_mem hnodup).2 he
        rw [show other.entries.lookup sid = some d from hget, Option.some.injEq] at hsame
        exact .mk hd' (hsame ▸ ih)
  intro sid hsid
  obtain ⟨e, he, rfl⟩ := List.mem_map.1 (contains_iff.1 hsid)
  rcases hmem e he with he | he
  · exact hold _ (contains_iff.2 (List.mem_map_of_mem he))
  · exact hnew _ (hother _ (contains_iff.2 (List.mem_map_of_mem he)))

/-- A closed part of a system keeps all ids founded. -/
theorem AllFounded.of_below (h : ts.AllFounded) (hbelow : ts'.Below ts)
    (hclosed : ∀ sid d, ts'.get? sid = some d → ∀ ref ∈ d.references, ts'.contains ref = true) :
    ts'.AllFounded := by
  have hpart : ∀ sid, ts.Founded sid → ts'.contains sid = true → ts'.Founded sid := by
    intro sid hsid
    induction hsid with
    | @mk sid d hget _ ih =>
      intro hin
      obtain ⟨d', hd'⟩ := Option.isSome_iff_exists.1 hin
      have hsame := (hbelow sid d' hd').symm.trans hget
      rw [Option.some.injEq] at hsame
      subst hsame
      exact .mk hd' fun ref href => ih ref href (hclosed sid d' hd' ref href)
  intro sid hsid
  obtain ⟨d, hd⟩ := Option.isSome_iff_exists.1 hsid
  exact hpart sid (h sid (Option.isSome_iff_exists.2 ⟨d, hbelow sid d hd⟩)) hsid

/-- What is collected was found in the system. -/
theorem find_of_collect {fuel : Nat} {stack : List SemId} {found result : List (SemId × TypeDef)}
    (h : ts.collect fuel stack found = .ok result)
    (hfound : ∀ e ∈ found, ts.get? e.1 = some e.2) : ∀ e ∈ result, ts.get? e.1 = some e.2 := by
  induction fuel generalizing stack found with
  | zero =>
    cases h
    exact fun e he => hfound e (List.mem_reverse.1 he)
  | succ fuel ih =>
    cases stack with
    | nil =>
      cases h
      exact fun e he => hfound e (List.mem_reverse.1 he)
    | cons sid stack =>
      rw [collect] at h
      split at h
      · exact ih h hfound
      · obtain ⟨d, hd, h⟩ := bind_eq_ok.1 h
        exact ih h (List.forall_mem_cons.2 ⟨find_eq_ok.1 hd, hfound⟩)

/-- What is extracted is part of the system. -/
theorem WellFormed.below_of_extract (h : ts.WellFormed) {roots : List SemId}
    (hextract : ts.extract roots = .ok ts') : ts'.Below ts := by
  obtain ⟨found, hcollect, hload⟩ := bind_eq_ok.1 hextract
  have hfound := find_of_collect hcollect nofun
  obtain rfl := eq_sorted_of_load
    (fun e he => h.normal e (h.get?_eq_some.1 (hfound e he))) hload
  intro sid d hd
  exact hfound (sid, d) ((entries_sorted_perm ⟨found⟩).mem_iff.1 (mem_of_lookup hd))

/-! ## Grown type systems -/

/-- A **grown** type system: one that arises from the empty one by inserting, deriving, merging and
extracting, where an insertion or a derivation may also have failed. -/
inductive Grown : TypeSystem → Prop
  | empty : Grown empty
  | insert {ts : TypeSystem} (d : Draft) (h : Grown ts) : Grown (Growth.insert d ts).2
  | derive {ts : TypeSystem} (c : Codec) (h : Grown ts) : Grown (c.derive ts).2
  | merge {ts other ts' : TypeSystem} {added : Nat} (h : Grown ts) (hother : Grown other)
      (hmerge : Growth.merge other ts = (.ok added, ts')) : Grown ts'
  | extract {ts ts' : TypeSystem} {roots : List SemId} (h : Grown ts)
      (hextract : ts.extract roots = .ok ts') : Grown ts'

namespace Grown

/-- Grown systems are reachable. -/
theorem reachable (h : Grown ts) : Reachable ts := by
  induction h with
  | empty => exact .empty
  | insert d _ ih => exact .insert d ih
  | derive c _ ih => exact .derive c ih
  | merge _ _ hmerge ih ihother => exact .merge ih ihother hmerge
  | extract _ hextract ih => exact .extract ih hextract

/-- In a grown system every id is founded. -/
theorem allFounded (h : Grown ts) : ts.AllFounded := by
  induction h with
  | empty => nofun
  | insert d _ ih => exact ih.insertions (Growth.onlyInserts_insert d _)
  | derive c _ ih => exact ih.insertions (c.onlyInserts_derive _)
  | merge _ hother hmerge ih ihother => exact ih.merge ihother hother.reachable.wellFormed.nodup hmerge
  | extract hts hextract ih =>
    have hpart := wellFormed_of_extract hextract
    refine ih.of_below (hts.reachable.wellFormed.below_of_extract hextract) fun sid d hd ref href => ?_
    exact hpart.closed _ (hpart.get?_eq_some.1 hd) ref href

end Grown

/-! ## Founded ids have codecs -/

/-- Every definition of a well-formed system is sound. -/
theorem WellFormed.sound (h : ts.WellFormed) {d : TypeDef} (hd : ts.get? sid = some d) :
    d.Sound := by
  have he := h.get?_eq_some.1 hd
  obtain ⟨p, hp⟩ := h.encodes he
  exact TypeDef.sound_of_encode (h.normal _ he) (h.valid _ he) hp

/-- A step that gives a result and is followed by one that does gives a result. -/
theorem exists_bind {α β : Type} {x : Except Failure α} {f : α → Except Failure β} {a : α}
    (hx : x = .ok a) (hf : ∃ b, f a = .ok b) : ∃ b, (x >>= f) = .ok b :=
  hf.imp fun _ hb => bind_eq_ok.2 ⟨a, hx, hb⟩

/-- A loop of which every round gives a result gives a result. -/
theorem exists_mapM {α β : Type} {f : α → Except Failure β} {xs : List α}
    (h : ∀ x ∈ xs, ∃ y, f x = .ok y) : ∃ ys, xs.mapM f = .ok ys := by
  obtain ⟨ps, rfl, hps⟩ := exists_eq_map (f := Prod.fst) (P := fun q : α × β => f q.1 = .ok q.2)
    fun x hx => (h x hx).imp' (x, ·) fun y hy => ⟨rfl, hy⟩
  exact ⟨_, mapM_eq_ok.2 ⟨ps, rfl, rfl, hps⟩⟩

/-- Whatever is there is of bytes or not. -/
theorem exists_isByte (h : ts.contains sid = true) : ∃ b, ts.isByte sid = .ok b := by
  obtain ⟨d, hd⟩ := Option.isSome_iff_exists.1 h
  exact exists_bind (find_eq_ok.2 hd) ⟨_, rfl⟩

/-- Whether fields stand for a string can be told when what they refer to is there. -/
theorem WellFormed.exists_splitText? (h : ts.WellFormed) {fields : List (String × SemId)}
    (hrefs : ∀ ref ∈ fields.map Prod.snd, ts.contains ref = true) :
    ∃ split?, ts.splitText? fields = .ok split? := by
  unfold splitText?
  split
  · rename_i firstId tailId
    obtain ⟨tail, htail⟩ := Option.isSome_iff_exists.1 (hrefs tailId (by simp))
    refine exists_bind (find_eq_ok.2 htail) ?_
    split
    · split
      · split
        · obtain ⟨b, hb⟩ := Bounds.exists_of? (h.sound htail)
          exact exists_bind hb ⟨_, rfl⟩
        · exact ⟨_, rfl⟩
      · exact ⟨_, rfl⟩
    · exact ⟨_, rfl⟩
  · exact ⟨_, rfl⟩

/-- A definition is described when the definitions that it refers to are. -/
theorem WellFormed.exists_describeBy (h : ts.WellFormed) {d : TypeDef} (hd : ts.get? sid = some d)
    {part : SemId → Except Failure Codec} (hpart : ∀ ref ∈ d.references, ∃ C, part ref = .ok C) :
    ∃ D, ts.describeBy part sid = .ok D := by
  have hsound := h.sound hd
  have hclosed := h.closed _ (h.get?_eq_some.1 hd)
  refine exists_bind (find_eq_ok.2 hd) ?_
  cases d with
  | primitive width | unicode | enumeration members => exact ⟨_, rfl⟩
  | union variants =>
    obtain ⟨xs, hxs⟩ := exists_mapM fun x hx => by
      obtain ⟨C, hC⟩ := hpart _ (List.mem_map_of_mem hx)
      exact exists_bind hC ⟨(x.1, x.2.1, C), rfl⟩
    exact exists_bind hxs ⟨_, rfl⟩
  | tuple items =>
    obtain ⟨xs, hxs⟩ := exists_mapM hpart
    exact exists_bind hxs ⟨_, rfl⟩
  | struct fields =>
    obtain ⟨split?, hsplit⟩ := h.exists_splitText? hclosed
    refine exists_bind hsplit ?_
    cases split? with
    | some c => exact ⟨_, rfl⟩
    | none =>
      obtain ⟨xs, hxs⟩ := exists_mapM fun f hf => by
        obtain ⟨C, hC⟩ := hpart _ (List.mem_map_of_mem hf)
        exact exists_bind hC ⟨(f.1, C), rfl⟩
      exact exists_bind hxs ⟨_, rfl⟩
  | array item length =>
    obtain ⟨b, hb⟩ := exists_isByte (hclosed item (List.mem_singleton.2 rfl))
    obtain ⟨C, hC⟩ := hpart item (List.mem_singleton.2 rfl)
    refine exists_bind hb ?_
    cases b with
    | true => exact ⟨_, rfl⟩
    | false => exact exists_bind hC ⟨_, rfl⟩
  | list item min max =>
    obtain ⟨b, hb⟩ := exists_isByte (hclosed item (List.mem_singleton.2 rfl))
    obtain ⟨C, hC⟩ := hpart item (List.mem_singleton.2 rfl)
    obtain ⟨bounds, hbounds⟩ := Bounds.exists_of? hsound
    dsimp only
    split
    · exact exists_bind hbounds ⟨_, rfl⟩
    · refine exists_bind hb ?_
      cases b with
      | true => exact exists_bind hbounds ⟨_, rfl⟩
      | false => exact exists_bind hC (exists_bind hbounds ⟨_, rfl⟩)
  | set item min max =>
    obtain ⟨C, hC⟩ := hpart item (List.mem_singleton.2 rfl)
    obtain ⟨bounds, hbounds⟩ := Bounds.exists_of? hsound
    exact exists_bind hC (exists_bind hbounds ⟨_, rfl⟩)
  | map key value min max =>
    obtain ⟨K, hK⟩ := hpart key (List.mem_cons_self ..)
    obtain ⟨V, hV⟩ := hpart value (by simp [Definition.references])
    obtain ⟨bounds, hbounds⟩ := Bounds.exists_of? hsound
    exact exists_bind hK (exists_bind hV (exists_bind hbounds ⟨_, rfl⟩))

/-- Finitely many ids that are described with some fuel each are described with the same fuel. -/
theorem exists_fuel {refs : List SemId} (h : ∀ ref ∈ refs, ∃ n D, ts.describe n ref = .ok D) :
    ∃ n, ∀ ref ∈ refs, ∃ D, ts.describe n ref = .ok D := by
  induction refs with
  | nil => exact ⟨0, nofun⟩
  | cons ref refs ih =>
    rw [List.forall_mem_cons] at h
    obtain ⟨m, D, hD⟩ := h.1
    obtain ⟨n, hn⟩ := ih h.2
    refine ⟨max m n, List.forall_mem_cons.2 ⟨⟨D, ?_⟩, fun ref href => ?_⟩⟩
    · exact describe_mono (.refl ts) (Nat.le_max_left m n) hD
    · obtain ⟨D, hD⟩ := hn ref href
      exact ⟨D, describe_mono (.refl ts) (Nat.le_max_right m n) hD⟩

/-- Every founded id of a well-formed system has a codec. -/
theorem WellFormed.exists_codecOf (h : ts.WellFormed) (hsid : ts.Founded sid) :
    ∃ D, ts.codecOf sid = .ok D := by
  suffices hdescribe : ∃ n D, ts.describe n sid = .ok D by
    obtain ⟨n, D, hD⟩ := hdescribe
    exact ⟨D, codecOf_eq_ok.2 ⟨n, hD⟩⟩
  induction hsid with
  | mk hget _ ih =>
    -- one round more than what the definition refers to needs
    obtain ⟨n, hn⟩ := exists_fuel ih
    obtain ⟨D, hD⟩ := h.exists_describeBy hget hn
    exact ⟨n + 1, D, hD⟩

end StrictContract.TypeSystem
