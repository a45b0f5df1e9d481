import StrictContract.Proofs.TypeSystem.Extraction
import StrictContract.Proofs.TypeSystem.Language

/-! # Closures — what is extracted is the least closed part with the roots

A part of a type system is **closed** if it has everything that its definitions refer to. The part that
is extracted from some roots is the least closed one that holds them. The references may lead round in
circles here; nothing is assumed about them.

* `Collects` is the loop of an extraction without a bound on the visits: one rule for an empty stack,
  one for an id that was noted before, one for a new id and one for an id that is not there.
* The bounded loop never reaches its bound, so it takes the same visits (`WellFormed.collects`).
* What is on the stack behind a root that is there is there, too, so the loop fails at the first
  root that is absent, and at no other id (`Collects.eq_fail`).
* A closed part with the roots holds whatever they reach, so it contains what is extracted. -/

namespace StrictContract.TypeSystem

variable {ts part u : TypeSystem} {roots stack : List SemId} {sid : SemId}

/-! ## The loop -/

/-- The **loop** of an extraction: from what is on the stack and what was noted to the outcome. -/
inductive Collects (ts : TypeSystem) : List SemId → List (SemId × TypeDef) →
    Except Failure (List (SemId × TypeDef)) → Prop
  | done {found : List (SemId × TypeDef)} : Collects ts [] found (.ok found.reverse)
  | old {sid : SemId} {stack : List SemId} {found : List (SemId × TypeDef)}
      {outcome : Except Failure (List (SemId × TypeDef))} (hold : sid ∈ found.map Prod.fst)
      (hrest : Collects ts stack found outcome) : Collects ts (sid :: stack) found outcome
  | new {sid : SemId} {d : TypeDef} {stack : List SemId} {found : List (SemId × TypeDef)}
      {outcome : Except Failure (List (SemId × TypeDef))} (hnew : sid ∉ found.map Prod.fst)
      (hget : ts.get? sid = some d)
      (hrest : Collects ts (d.references.reverse ++ stack) ((sid, d) :: found) outcome) :
      Collects ts (sid :: stack) found outcome
  | absent {sid : SemId} {stack : List SemId} {found : List (SemId × TypeDef)}
      (hnew : sid ∉ found.map Prod.fst) (hget : ts.get? sid = none) :
      Collects ts (sid :: stack) found (fail (.typeAbsent sid.text))

/-- The loop has one outcome. -/
theorem Collects.unique {found : List (SemId × TypeDef)}
    {outcome other : Except Failure (List (SemId × TypeDef))} (h : ts.Collects stack found outcome)
    (h' : ts.Collects stack found other) : other = outcome := by
  induction h with
  | done =>
    cases h'
    rfl
  | old hold _ ih =>
    cases h' with
    | old _ hrest => exact ih hrest
    | new hnew | absent hnew => exact absurd hold hnew
  | new hnew hget _ ih =>
    cases h' with
    | old hold => exact absurd hold hnew
    | new _ hget' hrest =>
      obtain rfl := Option.some.inj (hget.symm.trans hget')
      exact ih hrest
    | absent _ hget' => exact nomatch hget.symm.trans hget'
  | absent hnew hget =>
    cases h' with
    | old hold => exact absurd hold hnew
    | new _ hget' => exact nomatch hget.symm.trans hget'
    | absent => rfl

/-- With as much fuel as there are ids on the stack and references ahead, the bounded loop takes the
visits of the loop without a bound. -/
theorem WellFormed.collects (h : ts.WellFormed) {fuel : Nat} {found : List (SemId × TypeDef)}
    (hfuel : stack.length + ahead ts.entries found ≤ fuel) :
    ts.Collects stack found (ts.collect fuel stack found) := by
  -- the sum decreases with every visit, so it is used up only when the stack is empty
  induction fuel generalizing stack found with
  | zero =>
    obtain rfl : stack = [] := List.eq_nil_of_length_eq_zero (by omega)
    exact .done
  | succ fuel ih =>
    cases stack with
    | nil => exact .done
    | cons sid stack =>
      rw [List.length_cons] at hfuel
      rw [collect]
      by_cases hold : sid ∈ found.map Prod.fst
      · rw [if_pos (isSome_lookup.2 hold)]
        exact .old hold (ih (by omega))
      · rw [if_neg (mt isSome_lookup.1 hold), find]
        cases hget : ts.get? sid with
        | none => exact .absent hold hget
        | some d =>
          have hahead := ahead_note h.nodup (h.get?_eq_some.1 hget) hold
          refine .new hold hget (ih ?_)
          rw [List.length_append, List.length_reverse]
          omega

/-- An extraction takes the visits of the loop without a bound. -/
theorem WellFormed.collects_roots (h : ts.WellFormed) (roots : List SemId) :
    ts.Collects roots.reverse [] (ts.collect (ts.visitBound roots) roots.reverse []) := by
  refine h.collects ?_
  have hbound := visitBound_eq ts roots
  rw [List.length_reverse]
  omega

/-- The first absent id on the stack ends the loop: what comes on top of it is there. -/
theorem Collects.eq_fail (hclosed : ∀ sid d, ts.get? sid = some d →
      ∀ ref ∈ d.references, ts.contains ref = true) {found : List (SemId × TypeDef)}
    {outcome : Except Failure (List (SemId × TypeDef))} (h : ts.Collects stack found outcome)
    (hdrawn : ∀ e ∈ found, ts.get? e.1 = some e.2)
    (habsent : stack.find? (fun root => !ts.contains root) = some sid) :
    outcome = fail (.typeAbsent sid.text) := by
  induction h with
  | done => cases habsent
  | @old root stack found outcome hold _ ih =>
    obtain ⟨e, he, rfl⟩ := List.mem_map.1 hold
    have hin : ts.contains e.1 = true := Option.isSome_iff_exists.2 ⟨_, hdrawn e he⟩
    rw [List.find?_cons_of_neg (by simp [hin])] at habsent
    exact ih hdrawn habsent
  | @new root d stack found outcome hnew hget _ ih =>
    have hin : ts.contains root = true := Option.isSome_iff_exists.2 ⟨d, hget⟩
    have hrefs : d.references.reverse.find? (fun ref => !ts.contains ref) = none := by
      simpa using hclosed root d hget
    rw [List.find?_cons_of_neg (by simp [hin])] at habsent
    refine ih (List.forall_mem_cons.2 ⟨hget, hdrawn⟩) ?_
    rw [List.find?_append, hrefs, habsent]
    rfl
  | @absent root stack found hnew hget =>
    rw [List.find?_cons_of_pos (by simp [contains, hget])] at habsent
    rw [Option.some.inj habsent]

/-! ## Closed parts -/

/-- A **closed** type system: it has everything that its definitions refer to. -/
def Closed (ts : TypeSystem) : Prop :=
  ∀ sid d, ts.get? sid = some d → ∀ ref ∈ d.references, ts.contains ref = true

/-- Well-formed systems are closed. -/
theorem WellFormed.isClosed (h : ts.WellFormed) : ts.Closed :=
  fun _ _ hget => h.closed _ (h.get?_eq_some.1 hget)

/-- A closed part with the roots has the definitions of all that the roots reach. -/
theorem Closed.get?_of_reached (h : u.Closed) (hbelow : u.Below ts)
    (hroots : ∀ root ∈ roots, u.contains root = true) (hsid : ts.Reached roots sid) :
    ∃ d, u.get? sid = some d ∧ ts.get? sid = some d := by
  have hheld : u.contains sid = true := by
    induction hsid with
    | root hroot => exact hroots _ hroot
    | @step sid ref d _ hget href ih =>
      obtain ⟨e, he⟩ := Option.isSome_iff_exists.1 ih
      obtain rfl := Option.some.inj (hget.symm.trans (hbelow _ _ he))
      exact h _ _ he ref href
  obtain ⟨d, hd⟩ := Option.isSome_iff_exists.1 hheld
  exact ⟨d, hd, hbelow _ _ hd⟩

/-- The **closure** of some roots: the least closed part that holds them. -/
structure IsClosure (ts : TypeSystem) (roots : List SemId) (part : TypeSystem) : Prop where
  /-- Its ids are those that the roots reach. -/
  held : ∀ sid, part.contains sid = true ↔ ts.Reached roots sid
  /-- Its definitions are those of the whole. -/
  below : part.Below ts
  /-- It is closed. -/
  closed : part.Closed
  /-- Every closed part that holds the roots contains it. -/
  least : ∀ u : TypeSystem, u.Closed → u.Below ts → (∀ root ∈ roots, u.contains root = true) →
    part.Below u

/-- A part with just what the roots reach is their closure. -/
theorem WellFormed.isClosure (h : ts.WellFormed) (hroots : ∀ root ∈ roots, ts.contains root = true)
    (hget : ∀ sid d, part.get? sid = some d ↔ ts.Reached roots sid ∧ ts.get? sid = some d) :
    ts.IsClosure roots part := by
  have hheld : ∀ sid, part.contains sid = true ↔ ts.Reached roots sid := by
    intro sid
    constructor
    · intro hsid
      obtain ⟨d, hd⟩ := Option.isSome_iff_exists.1 hsid
      exact ((hget sid d).1 hd).1
    · intro hsid
      obtain ⟨d, hd⟩ := Option.isSome_iff_exists.1 (h.contains_of_reached hroots hsid)
      exact Option.isSome_iff_exists.2 ⟨d, (hget sid d).2 ⟨hsid, hd⟩⟩
  refine ⟨hheld, fun sid d hd => ((hget sid d).1 hd).2, fun sid d hd ref href => ?_, ?_⟩
  · obtain ⟨hsid, hd⟩ := (hget sid d).1 hd
    exact (hheld ref).2 (.step hsid hd href)
  · intro u hclosed hbelow hin sid d hd
    obtain ⟨hsid, hd⟩ := (hget sid d).1 hd
    obtain ⟨e, he, he'⟩ := hclosed.get?_of_reached hbelow hin hsid
    rwa [Option.some.inj (hd.symm.trans he')]

/-- The same roots in another arrangement reach the same. -/
theorem Reached.of_roots {roots' : List SemId} (h : ts.Reached roots sid)
    (hroots : ∀ sid ∈ roots, sid ∈ roots') : ts.Reached roots' sid := by
  induction h with
  | root hroot => exact .root (hroots _ hroot)
  | step _ hget href ih => exact .step ih hget href

/-- In their closure the roots reach what they reach in the whole. -/
theorem IsClosure.reached_iff (h : ts.IsClosure roots part) :
    part.Reached roots sid ↔ ts.Reached roots sid := by
  constructor
  · intro hsid
    induction hsid with
    | root hroot => exact .root hroot
    | step _ hget href ih => exact .step ih (h.below _ _ hget) href
  · intro hsid
    induction hsid with
    | root hroot => exact .root hroot
    | @step sid ref d hsid hget href ih =>
      obtain ⟨e, he⟩ := Option.isSome_iff_exists.1 ((h.held sid).2 hsid)
      obtain rfl := Option.some.inj (hget.symm.trans (h.below _ _ he))
      exact .step ih he href

/-! ## What is extracted -/

/-- From a root that is absent nothing is extracted; the last one that is absent is reported. -/
theorem WellFormed.extract_of_find? (h : ts.WellFormed)
    (habsent : roots.reverse.find? (fun root => !ts.contains root) = some sid) :
    ts.extract roots = fail (.typeAbsent sid.text) := by
  have hloop := h.collects_roots roots
  rw [extract, hloop.eq_fail h.isClosed nofun habsent]
  rfl

/-- What is extracted from all ids of a system are its definitions. -/
theorem WellFormed.same_of_isClosure (h : ts.WellFormed) (hpart : part.WellFormed)
    (hclosure : ts.IsClosure roots part) (hall : ∀ sid, sid ∈ roots ↔ ts.contains sid = true) :
    part.same ts = true := by
  have hmem : ∀ e, e ∈ ts.entries ↔ e ∈ part.entries := by
    rintro ⟨sid, d⟩
    rw [← h.get?_eq_some, ← hpart.get?_eq_some]
    refine ⟨fun hd => ?_, hclosure.below sid d⟩
    have hroot : sid ∈ roots := (hall sid).2 (Option.isSome_iff_exists.2 ⟨d, hd⟩)
    obtain ⟨e, he⟩ := Option.isSome_iff_exists.1 ((hclosure.held sid).2 (.root hroot))
    rwa [Option.some.inj (hd.symm.trans (hclosure.below sid e he))]
  exact hpart.same_of_perm ((List.perm_ext_iff_of_nodup (nodup_of_keys h.nodup)
    (nodup_of_keys hpart.nodup)).2 hmem)

/-! ## The closure of the roots -/

/-- **Extracting computes the least closed part.** The loop always ends, with one outcome. The
extraction fails with an unresolved reference just when a root is absent, and otherwise gives the closure
of the roots: in whatever order and however often they are named, again when it is extracted once more,
and all of the system when the roots are all of its ids. -/
theorem WellFormed.extract_isClosure (h : ts.WellFormed) (roots : List SemId) :
    (∃ outcome, ts.Collects roots.reverse [] outcome ∧
        (∀ other, ts.Collects roots.reverse [] other → other = outcome) ∧
        ts.extract roots = (do load ((← outcome).map fun e => (e.1, e.2.toDraft)))) ∧
      ((∃ e, ts.extract roots = .error (.strict e) ∧ e.kind = .unresolvedTypeReference) ↔
        ∃ root ∈ roots, ts.contains root = false) ∧
      ((∀ root ∈ roots, ts.contains root = true) → ∃ part, ts.extract roots = .ok part ∧
        ts.IsClosure roots part ∧
        (∀ roots', (∀ sid, sid ∈ roots' ↔ sid ∈ roots) → ts.extract roots' = .ok part) ∧
        part.extract roots = .ok part ∧
        ((∀ sid, sid ∈ roots ↔ ts.contains sid = true) → part.same ts = true)) := by
  have hsucceeds : (∀ root ∈ roots, ts.contains root = true) → ∃ part, ts.extract roots = .ok part ∧
      ∀ sid d, part.get? sid = some d ↔ ts.Reached roots sid ∧ ts.get? sid = some d :=
    fun hroots => (h.exists_extract hroots).imp fun part hpart => ⟨hpart.1, hpart.2.2⟩
  refine ⟨?_, ⟨?_, ?_⟩, fun hroots => ?_⟩
  · have hloop := h.collects_roots roots
    exact ⟨_, hloop, fun _ => hloop.unique, rfl⟩
  · rintro ⟨e, he, -⟩
    refine Decidable.byContradiction fun hnone => ?_
    obtain ⟨part, hpart, -⟩ := hsucceeds (by simpa using hnone)
    rw [he] at hpart
    cases hpart
  · rintro ⟨root, hroot, habsent⟩
    have hfind : (roots.reverse.find? fun root => !ts.contains root).isSome = true :=
      List.find?_isSome.2 ⟨root, List.mem_reverse.2 hroot, by rw [habsent]; rfl⟩
    obtain ⟨sid, hsid⟩ := Option.isSome_iff_exists.1 hfind
    exact ⟨_, h.extract_of_find? hsid, rfl⟩
  · obtain ⟨part, hextract, hget⟩ := hsucceeds hroots
    have hpart := wellFormed_of_extract hextract
    have hclosure := h.isClosure hroots hget
    have hheld : ∀ root ∈ roots, part.contains root = true :=
      fun root hroot => (hclosure.held root).2 (.root hroot)
    refine ⟨part, hextract, hclosure, fun roots' hroots' => ?_, ?_, h.same_of_isClosure hpart hclosure⟩
    · rw [← hextract]
      refine h.extract_eq_extract h (fun root hroot => hroots root ((hroots' root).1 hroot)) hroots ?_
      intro sid d
      refine and_congr_left fun _ => ⟨fun hsid => ?_, fun hsid => ?_⟩
      · exact hsid.of_roots fun sid => (hroots' sid).1
      · exact hsid.of_roots fun sid => (hroots' sid).2
    · rw [← hextract]
      refine hpart.extract_eq_extract h hheld hroots fun sid d => ?_
      rw [hclosure.reached_iff, hget, ← and_assoc, and_self]

/-- From the lists of truth values, however often they are named, the truth values are extracted,
too; where there are no types, nothing is. -/
theorem extract_isClosure_list : ∃ sid ts, (Codec.list .bool .tiny none).derive empty = (.ok sid, ts) ∧
    ts.WellFormed ∧
    (∃ part, ts.extract [sid, sid] = .ok part ∧ ts.IsClosure [sid, sid] part ∧
      part.extract [sid, sid] = .ok part) ∧
    ∃ e, empty.extract [sid] = .error (.strict e) ∧ e.kind = .unresolvedTypeReference := by
  obtain ⟨sid, ts, hderive, -⟩ := exists_derive_list derive_bool_empty (by decide) .tiny none
  have hts : ts.WellFormed := wellFormed_empty.of_derive hderive
  have hsid := contains_of_derive hderive
  obtain ⟨part, hpart, hclosure, -, hagain, -⟩ := (hts.extract_isClosure [sid, sid]).2.2 (by simp [hsid])
  exact ⟨sid, ts, hderive, hts, ⟨part, hpart, hclosure, hagain⟩,
    (wellFormed_empty.extract_isClosure [sid]).2.1.2 ⟨sid, by simp, rfl⟩⟩

end StrictContract.TypeSystem
