import StrictContract.Proofs.TypeLibrary.Compiling

/-! # Libraries — what compiled libraries are

A library that compiles has an id for each declared name, and each of its names is established. Its
types come from those of the used libraries by insertions, so they have every property that is
**hereditary**: merging and inserting keep it. -/

namespace StrictContract

open TypeSystem

variable {α β : Type}

/-! ## Heredity -/

namespace TypeSystem

/-- A property of type systems that is **hereditary**: the empty one has it, insertions keep it, and
merging does when both systems have it. -/
structure Hereditary (C : TypeSystem → Prop) : Prop where
  empty : C .empty
  inserted : ∀ {ts ts'}, C ts → Growth.Insertions ts ts' → C ts'
  merged : ∀ {ts other ts' added}, C ts → C other → Growth.merge other ts = (.ok added, ts') → C ts'

theorem hereditary_wellFormed : Hereditary WellFormed :=
  ⟨wellFormed_empty, fun h hins => hins.wellFormed h, fun h hother hmerge => h.merge hother hmerge⟩

/-- Insertions that succeed make a grown system a grown one. -/
theorem hereditary_grown : Hereditary Grown := by
  refine ⟨.empty, fun {ts ts'} h hins => ?_, fun h hother hmerge => h.merge hother hmerge⟩
  induction hins with
  | refl => exact h
  | @step ts ts₁ ts₂ d sid hd _ ih =>
    refine ih ?_
    have hgrown := h.insert d
    rwa [Growth.insert_eq_ok.2 hd] at hgrown

end TypeSystem

namespace TypeLibrary

variable {lib : TypeLibrary} {used : List (String × SymbolicSystem)} {w w' : Workbench}

/-! ## One library -/

/-- Merging the used libraries adds their types and no names. -/
theorem mergeUsed_eq_ok {C : TypeSystem → Prop} (hC : Hereditary C) (hw : C w.types)
    (hused : ∀ e ∈ used, C e.2.types) (h : mergeUsed used w = (.ok (), w')) :
    C w'.types ∧ w'.names = w.names := by
  induction used generalizing w with
  | nil =>
    cases h
    exact ⟨hw, rfl⟩
  | cons e used ih =>
    rw [List.forall_mem_cons] at hused
    rw [mergeUsed, bind_apply] at h
    unfold Compiling.grow at h
    rcases hmerge : Growth.merge e.2.types w.types with ⟨e' | added, ts⟩
    · rw [hmerge] at h
      cases h
    · rw [hmerge] at h
      exact ih (w := { w with types := ts }) (hC.merged hw hused.1 hmerge) hused.2 h

/-- What a compiled library is. -/
structure Compiled (lib : TypeLibrary) (used : List (String × SymbolicSystem))
    (sys : SymbolicSystem) : Prop where
  library : sys.library = lib.name
  /-- Every compiled name has the id that its declaration declares. -/
  established : ∀ e ∈ sys.names, lib.Establishes used ⟨sys.types, sys.names⟩ e.1 e.2
  /-- Every declared name has a meaning. -/
  complete : ∀ e ∈ lib.declarations, ∃ ty sid, e.1 = .text ty ∧
    meaning? used sys.names ty = some sid
  /-- What holds of the types of the used libraries holds of the types. -/
  types : ∀ C, Hereditary C → (∀ e ∈ used, C e.2.types) → C sys.types

/-- A library compiles if the libraries that it uses are provided, their types can be merged, and every
declaration can be compiled with these. -/
theorem compile_eq_ok {sys : SymbolicSystem} {written : List Event} :
    (lib.compile used written).1 = .ok sys ↔ (∀ name ∈ lib.uses, (used.lookup name).isSome = true) ∧
      ∃ bench done, mergeUsed used ⟨.empty, []⟩ = (.ok (), bench) ∧
        compileAllDeclarations lib used bench = (.ok (), done) ∧
        sys = ⟨lib.name, done.types, done.names⟩ := by
  unfold compile
  cases hmissing : lib.uses.find? fun name => (used.lookup name).isNone with
  | some missing =>
    refine iff_of_false nofun fun ⟨hprovided, _⟩ => ?_
    have hnone := List.find?_some hmissing
    rw [Option.isNone_iff_eq_none] at hnone
    have hsome := hprovided missing (List.mem_of_find?_eq_some hmissing)
    rw [hnone] at hsome
    cases hsome
  | none =>
  have hprovided : ∀ name ∈ lib.uses, (used.lookup name).isSome = true := by
    simpa [Option.isSome_iff_ne_none] using hmissing
  dsimp only
  rcases hmerge : mergeUsed used ⟨.empty, []⟩ with ⟨e | u, bench⟩
  · exact iff_of_false nofun fun ⟨_, _, _, h, _⟩ => nomatch h
  rcases hall : compileAllDeclarations lib used bench with ⟨e | u, done⟩
  · refine iff_of_false ?_ ?_
    · dsimp only
      rw [hall]
      nofun
    · rintro ⟨-, _, _, ⟨⟩, h, -⟩
      rw [hall] at h
      cases h
  · dsimp only
    rw [hall]
    constructor
    · rintro ⟨⟩
      exact ⟨hprovided, bench, done, rfl, hall, rfl⟩
    · rintro ⟨-, _, _, ⟨⟩, h, rfl⟩
      rw [hall] at h
      cases h
      rfl

/-- Merging the used libraries starts without names. -/
theorem names_eq_nil_of_mergeUsed {bench : Workbench}
    (h : mergeUsed used ⟨.empty, []⟩ = (.ok (), bench)) : bench.names = [] :=
  (mergeUsed_eq_ok (C := fun _ => True) ⟨trivial, fun _ _ => trivial, fun _ _ _ => trivial⟩ trivial
    (fun _ _ => trivial) h).2

/-- A library that compiles is compiled. -/
theorem compiled_of_compile {sys : SymbolicSystem} {written : List Event}
    (h : (lib.compile used written).1 = .ok sys) : lib.Compiled used sys := by
  obtain ⟨-, bench, done, hmerge, hall, rfl⟩ := compile_eq_ok.1 h
  have hstart : lib.Progress used [] bench := by
    refine ⟨?_, nofun⟩
    rw [names_eq_nil_of_mergeUsed hmerge]
    nofun
  have hachieves : Compiling.Achieves (lib.Progress used []) (compileAllDeclarations lib used)
      fun w _ => ∀ e ∈ lib.declarations, ∃ ty sid, e.1 = .text ty ∧
        meaning? used w.names ty = some sid := by
    refine Compiling.achieves_forM ?_ fun e _ => ?_
    · rintro e w w' hgrows ⟨ty, sid, hty, hmeans⟩
      exact ⟨ty, sid, hty, lasting_meaning ty w w' sid hgrows hmeans⟩
    · refine (achieves_compileReference lib used _ [] e.1 _).bind ?_ fun sid =>
        Compiling.achieves_pure fun w _ h => ?_
      · rintro w w' sid hgrows ⟨ty, hty, hmeans⟩
        exact ⟨ty, hty, lasting_meaning ty w w' sid hgrows hmeans⟩
      · obtain ⟨ty, hty, hmeans⟩ := h
        exact ⟨ty, sid, hty, hmeans⟩
  obtain ⟨hgrows, hprogress, hcomplete⟩ := hachieves bench hstart () done hall
  refine ⟨rfl, hprogress.established, hcomplete, fun C hC hused => ?_⟩
  exact hC.inserted (mergeUsed_eq_ok hC hC.empty hused hmerge).1 hgrows.types

end TypeLibrary

/-! ## Several libraries -/

/-- A computation **ensures** a fact about its result, if it has one. -/
def Logged.Ensures (m : Logged α) (Q : α → Prop) : Prop :=
  ∀ written a, (m written).1 = .ok a → Q a

namespace Logged.Ensures

variable {Q : α → Prop} {R : β → Prop}

theorem pure {a : α} (h : Q a) : Ensures (pure a) Q := by
  intro written a' hrun
  cases hrun
  exact h

/-- A failure ensures everything. -/
theorem fail {c : Cause} : Ensures (liftM (StrictContract.fail c : Except Failure α)) Q := by
  intro written a hrun
  cases hrun

theorem bind {m : Logged α} {f : α → Logged β} (hm : Ensures m Q)
    (hf : ∀ a, Q a → Ensures (f a) R) : Ensures (m >>= f) R := by
  intro written b hrun
  rw [bind_apply] at hrun
  rcases hm' : m written with ⟨e | a, written'⟩
  · rw [hm'] at hrun
    cases hrun
  · rw [hm'] at hrun
    have ha := hm written a (by rw [hm'])
    exact hf a ha written' b hrun

/-- A loop ensures what every round keeps. -/
theorem foldlM {f : β → α → Logged β} {xs : List α} {b : β} (hb : R b)
    (h : ∀ b, R b → ∀ x ∈ xs, Ensures (f b x) R) : Ensures (xs.foldlM f b) R := by
  induction xs generalizing b with
  | nil => exact pure hb
  | cons x xs ih =>
    rw [List.foldlM_cons]
    refine (h b hb x (List.mem_cons_self ..)).bind fun b' hb' => ih hb' fun b hb x hx => ?_
    exact h b hb x (List.mem_cons_of_mem _ hx)

end Logged.Ensures

namespace TypeLibrary

variable {C : TypeSystem → Prop} {libs : List TypeLibrary}

/-- Whatever is hereditary holds of every library that is compiled with those it uses. -/
theorem ensures_compileNamed (hC : Hereditary C) (fuel : Nat) (chain : List String)
    {done : List (String × SymbolicSystem)} (hdone : ∀ e ∈ done, C e.2.types) (name : String) :
    Logged.Ensures (compileNamed libs fuel chain done name) fun done => ∀ e ∈ done, C e.2.types := by
  induction fuel generalizing chain done name with
  | zero => exact .fail
  | succ fuel ih =>
    rw [compileNamed, namedStep]
    split
    · exact .pure hdone
    dsimp only
    split
    · exact Logged.Ensures.bind (Q := fun _ => False) .fail nofun
    cases find? libs name with
    | none => exact .fail
    | some lib =>
      refine .bind (.foldlM hdone fun done hdone dep _ => ih _ hdone dep) fun done hdone => ?_
      have hused : ∀ e ∈ lib.uses.filterMap fun dep =>
          (done.lookup dep).map fun sys => (dep, sys), C e.2.types := by
        intro e he
        obtain ⟨dep, -, he⟩ := List.mem_filterMap.1 he
        obtain ⟨sys, hsys, rfl⟩ := Option.map_eq_some_iff.1 he
        exact hdone (dep, sys) (mem_of_lookup hsys)
      refine .bind (Q := fun sys => C sys.types) (fun written sys h =>
        (compiled_of_compile h).types C hC hused) fun sys hsys => .pure ?_
      exact List.forall_mem_append.2 ⟨hdone, List.forall_mem_singleton.2 hsys⟩

/-- Whatever is hereditary holds of all libraries that are compiled together. -/
theorem ensures_compileAll (hC : Hereditary C) :
    Logged.Ensures (compileAll libs) fun done => ∀ e ∈ done, C e.2.types :=
  .foldlM nofun fun _ hdone _ _ => ensures_compileNamed hC _ _ hdone _

end TypeLibrary

end StrictContract
