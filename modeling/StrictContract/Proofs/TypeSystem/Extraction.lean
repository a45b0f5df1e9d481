import StrictContract.Proofs.TypeSystem.Encoding
import StrictContract.Proofs.TypeSystem.Founded

/-! # Extraction — the part of a type system that some roots reach

Some roots **reach** an id when references lead to it from one of them. An extraction **visits** what
its roots reach: it takes an id from a stack, and for an id that is new it notes the definition and
puts the references of the definition on the stack.

* `Visiting` is what every visit keeps: what was noted is reached, and every root and every reference
  of what was noted has been noted, too, or is still on the stack.
* Every visit uses up one of the roots and references that are yet to be put on the stack or taken
  from it, so the bound on the number of visits is reached only when the stack is empty.
* What has been noted then is all that the roots reach, and it passes the checks of loading. -/

namespace StrictContract.TypeSystem

variable {ts ts' : TypeSystem} {roots : List SemId} {sid : SemId}

/-! ## What roots reach -/

/-- The ids that some roots **reach**. -/
inductive Reached (ts : TypeSystem) (roots : List SemId) : SemId → Prop
  | root {sid : SemId} (h : sid ∈ roots) : Reached ts roots sid
  | step {sid ref : SemId} {d : TypeDef} (h : Reached ts roots sid) (hget : ts.get? sid = some d)
      (href : ref ∈ d.references) : Reached ts roots ref

/-- What roots of a well-formed system reach is in the system. -/
theorem WellFormed.contains_of_reached (h : ts.WellFormed)
    (hroots : ∀ root ∈ roots, ts.contains root = true) (hsid : ts.Reached roots sid) :
    ts.contains sid = true := by
  induction hsid with
  | root hroot => exact hroots _ hroot
  | step _ hget href _ => exact h.closed _ (h.get?_eq_some.1 hget) _ href

/-! ## Visits -/

/-- An extraction under way, with what is on the stack and what was noted. -/
structure Visiting (ts : TypeSystem) (roots stack : List SemId) (found : List (SemId × TypeDef)) :
    Prop where
  /-- What is on the stack is reached. -/
  pending : ∀ sid ∈ stack, ts.Reached roots sid
  /-- What was noted is reached. -/
  reached : ∀ e ∈ found, ts.Reached roots e.1
  /-- No root is forgotten. -/
  roots : ∀ root ∈ roots, root ∈ found.map Prod.fst ∨ root ∈ stack
  /-- No reference is forgotten. -/
  closed : ∀ e ∈ found, ∀ ref ∈ e.2.references, ref ∈ found.map Prod.fst ∨ ref ∈ stack

namespace Visiting

variable {stack : List SemId} {found : List (SemId × TypeDef)}

/-- At first all roots are on the stack. -/
theorem start (ts : TypeSystem) (roots : List SemId) : Visiting ts roots roots.reverse [] where
  pending _ hsid := .root (List.mem_reverse.1 hsid)
  reached := nofun
  roots _ hroot := .inr (List.mem_reverse.2 hroot)
  closed := nofun

/-- An id that was noted before is taken from the stack. -/
theorem skip (h : Visiting ts roots (sid :: stack) found) (hold : sid ∈ found.map Prod.fst) :
    Visiting ts roots stack found := by
  have hstill : ∀ ref, ref ∈ found.map Prod.fst ∨ ref ∈ sid :: stack →
      ref ∈ found.map Prod.fst ∨ ref ∈ stack := by
    rintro ref (href | href)
    · exact .inl href
    · rcases List.mem_cons.1 href with rfl | href
      · exact .inl hold
      · exact .inr href
  exact
    { pending := fun ref href => h.pending ref (List.mem_cons_of_mem sid href)
      reached := h.reached
      roots := fun root hroot => hstill root (h.roots root hroot)
      closed := fun e he ref href => hstill ref (h.closed e he ref href) }

/-- An id that is new is noted, and its references are put on the stack. -/
theorem note (h : Visiting ts roots (sid :: stack) found) {d : TypeDef}
    (hget : ts.get? sid = some d) :
    Visiting ts roots (d.references.reverse ++ stack) ((sid, d) :: found) := by
  have hsid : ts.Reached roots sid := h.pending sid (List.mem_cons_self ..)
  have hstill : ∀ ref, ref ∈ found.map Prod.fst ∨ ref ∈ sid :: stack →
      ref ∈ ((sid, d) :: found).map Prod.fst ∨ ref ∈ d.references.reverse ++ stack := by
    rintro ref (href | href)
    · exact .inl (List.mem_cons_of_mem sid href)
    · rcases List.mem_cons.1 href with rfl | href
      · exact .inl (List.mem_cons_self ..)
      · exact .inr (List.mem_append_right _ href)
  refine ⟨?_, ?_, fun root hroot => hstill root (h.roots root hroot), ?_⟩
  · intro ref href
    rcases List.mem_append.1 href with href | href
    · exact .step hsid hget (List.mem_reverse.1 href)
    · exact h.pending ref (List.mem_cons_of_mem sid href)
  · exact List.forall_mem_cons.2 ⟨hsid, h.reached⟩
  · refine List.forall_mem_cons.2 ⟨fun ref href => ?_, fun e he ref href => ?_⟩
    · exact .inr (List.mem_append_left _ (List.mem_reverse.2 href))
    · exact hstill ref (h.closed e he ref href)

/-- The order in which definitions were noted does not matter. -/
theorem reverse (h : Visiting ts roots stack found) : Visiting ts roots stack found.reverse where
  pending := h.pending
  reached e he := h.reached e (List.mem_reverse.1 he)
  roots root hroot := by
    rw [List.map_reverse, List.mem_reverse]
    exact h.roots root hroot
  closed e he ref href := by
    rw [List.map_reverse, List.mem_reverse]
    exact h.closed e (List.mem_reverse.1 he) ref href

/-- With an empty stack all that the roots reach has been noted. -/
theorem mem_of_reached (h : Visiting ts roots [] found) (hdrawn : ∀ e ∈ found, ts.get? e.1 = some e.2)
    (hsid : ts.Reached roots sid) : sid ∈ found.map Prod.fst := by
  induction hsid with
  | root hroot => exact (h.roots _ hroot).resolve_right List.not_mem_nil
  | @step sid ref d _ hget href ih =>
    obtain ⟨e, he, rfl⟩ := List.mem_map.1 ih
    obtain rfl : e.2 = d := Option.some.inj ((hdrawn e he).symm.trans hget)
    exact (h.closed e he ref href).resolve_right List.not_mem_nil

end Visiting

/-! ## The number of visits -/

/-- The number of references of the entries that are not noted yet. -/
def ahead (entries found : List (SemId × TypeDef)) : Nat :=
  ((entries.filter fun e => (found.lookup e.1).isNone).flatMap fun e => e.2.references).length

/-- Entries have the references ahead that their parts have. -/
theorem ahead_append (before after found : List (SemId × TypeDef)) :
    ahead (before ++ after) found = ahead before found + ahead after found := by
  simp [ahead]

/-- Noting a definition makes no difference to entries under other ids. -/
theorem ahead_cons_of_not_mem {entries : List (SemId × TypeDef)}
    (hother : sid ∉ entries.map Prod.fst) (d : TypeDef) (found : List (SemId × TypeDef)) :
    ahead entries ((sid, d) :: found) = ahead entries found := by
  have hsame : ∀ e ∈ entries,
      (((sid, d) :: found).lookup e.1).isNone = (found.lookup e.1).isNone := by
    intro e he
    rw [Table.lookup_cons_eq_ite, if_neg]
    intro hid
    exact hother (List.mem_map.2 ⟨e, he, hid⟩)
  rw [ahead, List.filter_congr hsame, ahead]

/-- At first all references are ahead. -/
theorem visitBound_eq (ts : TypeSystem) (roots : List SemId) :
    ts.visitBound roots = roots.length + ahead ts.entries [] := by
  have hfold : ∀ (entries : List (SemId × TypeDef)) (bound : Nat),
      entries.foldl (fun bound e => bound + e.2.references.length) bound =
        bound + ahead entries [] := by
    intro entries
    induction entries with
    | nil => exact fun _ => rfl
    | cons e entries ih =>
      intro bound
      have hcons : ahead (e :: entries) [] = e.2.references.length + ahead entries [] := by
        simp [ahead]
      rw [List.foldl_cons, ih, hcons, Nat.add_assoc]
  exact hfold ts.entries roots.length

/-- Noting a definition leaves the references of the others ahead. -/
theorem ahead_note {entries found : List (SemId × TypeDef)} (hnodup : (entries.map Prod.fst).Nodup)
    {d : TypeDef} (hmem : (sid, d) ∈ entries) (hnew : sid ∉ found.map Prod.fst) :
    ahead entries found = d.references.length + ahead entries ((sid, d) :: found) := by
  -- the entry of the id stands apart, the entries before and after it have other ids
  obtain ⟨before, after, rfl⟩ := List.append_of_mem hmem
  rw [List.map_append, List.map_cons, List.nodup_append, List.nodup_cons] at hnodup
  obtain ⟨-, ⟨hafter, -⟩, hapart⟩ := hnodup
  have hbefore : sid ∉ before.map Prod.fst :=
    fun hin => hapart sid hin sid (List.mem_cons_self ..) rfl
  have hnone : found.lookup sid = none :=
    Option.not_isSome_iff_eq_none.1 (mt isSome_lookup.1 hnew)
  have hself : ahead ((sid, d) :: after) found = d.references.length + ahead after found := by
    simp [ahead, hnone]
  have hnoted : ahead ((sid, d) :: after) ((sid, d) :: found) = ahead after ((sid, d) :: found) := by
    simp [ahead]
  rw [ahead_append, ahead_append, hself, hnoted, ahead_cons_of_not_mem hbefore,
    ahead_cons_of_not_mem hafter]
  omega

/-- With as much fuel as there are ids on the stack and references ahead, an extraction gets to an
empty stack. -/
theorem WellFormed.exists_collect (h : ts.WellFormed)
    (hroots : ∀ root ∈ roots, ts.contains root = true) {fuel : Nat} {stack : List SemId}
    {found : List (SemId × TypeDef)} (hvisiting : Visiting ts roots stack found)
    (hfuel : stack.length + ahead ts.entries found ≤ fuel) :
    ∃ result, ts.collect fuel stack found = .ok result ∧ Visiting ts roots [] result := by
  -- a visit to an old id shortens the stack; one to a new id moves its references from those ahead
  -- to the stack and takes the id off, so in both cases the sum decreases
  induction fuel generalizing stack found with
  | zero =>
    obtain rfl : stack = [] := List.eq_nil_of_length_eq_zero (by omega)
    exact ⟨_, rfl, hvisiting.reverse⟩
  | succ fuel ih =>
    cases stack with
    | nil => exact ⟨_, rfl, hvisiting.reverse⟩
    | cons sid stack =>
      rw [List.length_cons] at hfuel
      rw [collect]
      by_cases hold : sid ∈ found.map Prod.fst
      · rw [if_pos (isSome_lookup.2 hold)]
        exact ih (hvisiting.skip hold) (by omega)
      · rw [if_neg (mt isSome_lookup.1 hold)]
        -- what is on the stack is reached, so it is there
        have hin := h.contains_of_reached hroots (hvisiting.pending sid (List.mem_cons_self ..))
        obtain ⟨d, hget⟩ := Option.isSome_iff_exists.1 hin
        have hahead := ahead_note h.nodup (h.get?_eq_some.1 hget) hold
        obtain ⟨result, hresult, hend⟩ := ih (hvisiting.note hget) (by
          rw [List.length_append, List.length_reverse]
          omega)
        exact ⟨result, bind_eq_ok.2 ⟨d, find_eq_ok.2 hget, hresult⟩, hend⟩

/-! ## What is extracted -/

/-- Ascending systems with the same definitions are equal. -/
theorem Ascending.eq_of_get? (h : ts.Ascending) (h' : ts'.Ascending)
    (hsame : ∀ sid, ts.get? sid = ts'.get? sid) : ts = ts' := by
  have hmem : ∀ e, e ∈ ts.entries ↔ e ∈ ts'.entries := by
    rintro ⟨sid, d⟩
    rw [← lookup_eq_some_iff_mem h.nodup, ← lookup_eq_some_iff_mem h'.nodup]
    exact Eq.congr_left (hsame sid)
  have hperm : ts.entries.Perm ts'.entries :=
    (List.perm_ext_iff_of_nodup (nodup_of_keys h.nodup) (nodup_of_keys h'.nodup)).2 hmem
  exact congrArg TypeSystem.mk (eq_of_perm_of_ascending (fun e : SemId × TypeDef => e.1.octets) hperm
    (List.pairwise_map.2 h) (List.pairwise_map.2 h'))

/-- From roots that a well-formed system holds, just what they reach is extracted, in ascending
order of the ids. -/
theorem WellFormed.exists_extract (h : ts.WellFormed)
    (hroots : ∀ root ∈ roots, ts.contains root = true) :
    ∃ part, ts.extract roots = .ok part ∧ part.Ascending ∧
      ∀ sid d, part.get? sid = some d ↔ ts.Reached roots sid ∧ ts.get? sid = some d := by
  have hfuel : roots.reverse.length + ahead ts.entries [] ≤ ts.visitBound roots := by
    have hbound := visitBound_eq ts roots
    rw [List.length_reverse]
    omega
  obtain ⟨found, hcollect, hvisited⟩ := h.exists_collect hroots (Visiting.start ts roots) hfuel
  have hdrawn := find_of_collect hcollect nofun
  have hnodup := nodup_of_collect hcollect .nil
  have hmem : ∀ e, e ∈ found ↔ ts.Reached roots e.1 ∧ ts.get? e.1 = some e.2 := by
    intro e
    constructor
    · exact fun he => ⟨hvisited.reached e he, hdrawn e he⟩
    · rintro ⟨hreached, hget⟩
      obtain ⟨x, hx, hid⟩ := List.mem_map.1 (hvisited.mem_of_reached hdrawn hreached)
      have hsame := hdrawn x hx
      rw [hid, hget, Option.some.injEq] at hsame
      rwa [show e = x from Prod.ext hid.symm hsame]
  have hheld : ∀ e ∈ found, e ∈ ts.entries := fun e he => h.get?_eq_some.1 (hdrawn e he)
  -- what was noted is well formed by itself, so loading accepts it
  have hpart : WellFormed ⟨found⟩ :=
    { nodup := hnodup
      named := fun e he => h.named e (hheld e he)
      valid := fun e he => h.valid e (hheld e he)
      closed := fun e he ref href =>
        contains_iff.2 ((hvisited.closed e he ref href).resolve_right List.not_mem_nil)
      small := by
        have hlength := (nodup_of_keys hnodup).length_le_of_subset hheld
        exact Nat.le_trans hlength h.small
      normal := fun e he => h.normal e (hheld e he) }
  have hsorted := hpart.of_perm (entries_sorted_perm ⟨found⟩)
  refine ⟨sorted ⟨found⟩, bind_eq_ok.2 ⟨found, hcollect, hpart.load_toDraft⟩,
    ascending_sorted hnodup, fun sid d => ?_⟩
  rw [hsorted.get?_eq_some, (entries_sorted_perm ⟨found⟩).mem_iff]
  exact hmem (sid, d)

/-- What is extracted depends only on what the roots reach. -/
theorem WellFormed.extract_eq_extract (h : ts.WellFormed) (h' : ts'.WellFormed) {roots' : List SemId}
    (hroots : ∀ root ∈ roots, ts.contains root = true)
    (hroots' : ∀ root ∈ roots', ts'.contains root = true)
    (hsame : ∀ sid d, ts.Reached roots sid ∧ ts.get? sid = some d ↔
      ts'.Reached roots' sid ∧ ts'.get? sid = some d) : ts.extract roots = ts'.extract roots' := by
  obtain ⟨part, hpart, hascending, hget⟩ := h.exists_extract hroots
  obtain ⟨part', hpart', hascending', hget'⟩ := h'.exists_extract hroots'
  have hequal : part = part' := hascending.eq_of_get? hascending' fun sid =>
    Option.ext fun d => ((hget sid d).trans (hsame sid d)).trans (hget' sid d).symm
  rw [hpart, hpart', hequal]

end StrictContract.TypeSystem
