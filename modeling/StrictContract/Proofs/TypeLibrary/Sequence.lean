import StrictContract.Proofs.TypeLibrary.Course

/-! # Sequences — in which order libraries are compiled

A library is compiled when those that it uses are, and with nothing else than these. So the compiled
libraries come in a **sequence**: each was compiled with what came before it. This is all that is
needed of the search through the libraries. -/

namespace StrictContract

open TypeSystem

variable {α β : Type}

/-! ## Loops -/

/-- A loop ensures for each item what its round does, if the later rounds keep it. -/
theorem Logged.Ensures.foldlM_forall {R : β → Prop} {S : β → α → Prop} {f : β → α → Logged β}
    {xs : List α} {b : β} (hb : R b) (h : ∀ b, R b → ∀ x ∈ xs,
      Ensures (f b x) fun b' => R b' ∧ S b' x ∧ ∀ y, S b y → S b' y) :
    Ensures (xs.foldlM f b) fun b' => R b' ∧ (∀ x ∈ xs, S b' x) ∧ ∀ y, S b y → S b' y := by
  induction xs generalizing b with
  | nil => exact .pure ⟨hb, nofun, fun _ h => h⟩
  | cons x xs ih =>
    rw [List.foldlM_cons]
    refine (h b hb x (List.mem_cons_self ..)).bind fun b' ⟨hb', hx, hkeep⟩ => ?_
    have hrest := ih hb' fun b hb y hy => h b hb y (List.mem_cons_of_mem _ hy)
    intro written b'' hrun
    obtain ⟨hb'', hxs, hkeep'⟩ := hrest written b'' hrun
    exact ⟨hb'', List.forall_mem_cons.2 ⟨hkeep' x hx, hxs⟩, fun y hy => hkeep' y (hkeep y hy)⟩

namespace TypeLibrary

variable {lib : TypeLibrary} {libs : List TypeLibrary} {done : List (String × SymbolicSystem)}

/-! ## What a library is given -/

/-- The libraries that are **provided** to a library: of those that are compiled the ones that it
uses. -/
def provided (lib : TypeLibrary) (done : List (String × SymbolicSystem)) :
    List (String × SymbolicSystem) :=
  lib.uses.filterMap fun dep => (done.lookup dep).map fun sys => (dep, sys)

/-- A library that is found is one of the list, under its own name. -/
theorem find?_eq_some {name : String} (h : find? libs name = some lib) :
    lib ∈ libs ∧ lib.name = name :=
  ⟨List.mem_reverse.1 (List.mem_of_find?_eq_some h), by simpa using List.find?_some h⟩

/-! ## Sequences -/

/-- A **sequence** of compiled libraries: each was compiled with what came before it, and none came
twice. -/
structure Sequence (libs : List TypeLibrary) (done : List (String × SymbolicSystem)) : Prop where
  compiled : ∀ before e after, done = before ++ e :: after → ∃ lib, find? libs e.1 = some lib ∧
    (∀ dep ∈ lib.uses, dep ∈ before.map Prod.fst) ∧
    ∃ written, (lib.compile (lib.provided before) written).1 = .ok e.2
  nodup : (done.map Prod.fst).Nodup

/-- A library that is compiled goes on with the sequence. -/
theorem Sequence.concat (h : Sequence libs done) {name : String} {sys : SymbolicSystem}
    {written : List Event} (hnew : name ∉ done.map Prod.fst) (hfind : find? libs name = some lib)
    (huses : ∀ dep ∈ lib.uses, dep ∈ done.map Prod.fst)
    (hcompile : (lib.compile (lib.provided done) written).1 = .ok sys) :
    Sequence libs (done ++ [(name, sys)]) := by
  constructor
  · intro before e after hsplit
    rcases List.eq_nil_or_concat after with rfl | ⟨rest, last, rfl⟩
    · obtain ⟨rfl, hlast⟩ := List.append_inj' hsplit rfl
      cases hlast
      exact ⟨lib, hfind, huses, written, hcompile⟩
    · have hsplit' : done ++ [(name, sys)] = (before ++ e :: rest) ++ [last] := by simpa using hsplit
      exact h.compiled before e rest (List.append_inj' hsplit' rfl).1
  · rw [List.map_append, List.map_singleton]
    exact nodup_concat h.nodup hnew

/-- Compiling the library with a name goes on with the sequence up to it. The libraries that wait for
it stay without a result. -/
theorem ensures_sequence (fuel : Nat) (chain : List String) (hdone : Sequence libs done)
    (hpending : ∀ c ∈ chain, c ∉ done.map Prod.fst) (name : String) :
    Logged.Ensures (compileNamed libs fuel chain done name) fun done' =>
      (Sequence libs done' ∧ ∀ c ∈ chain, c ∉ done'.map Prod.fst) ∧
        name ∈ done'.map Prod.fst ∧ done <+: done' := by
  induction fuel generalizing chain done name with
  | zero => exact .fail
  | succ fuel ih =>
    rw [compileNamed, namedStep]
    split
    · rename_i hknown
      rw [isSome_lookup] at hknown
      exact .pure ⟨⟨hdone, hpending⟩, hknown, List.prefix_rfl⟩
    rename_i hnew
    rw [isSome_lookup] at hnew
    dsimp only
    split
    · exact Logged.Ensures.bind (Q := fun _ => False) .fail fun _ h => h.elim
    rename_i hchain
    rw [List.contains_iff_mem] at hchain
    cases hfind : find? libs name with
    | none => exact .fail
    | some lib =>
      -- while its uses are compiled, the name waits on the chain
      refine .bind (Logged.Ensures.foldlM_forall (R := fun done' =>
          (Sequence libs done' ∧ ∀ c ∈ chain ++ [name], c ∉ done'.map Prod.fst) ∧ done <+: done')
        (S := fun done' dep => dep ∈ done'.map Prod.fst) ⟨⟨hdone, ?_⟩, List.prefix_rfl⟩
        fun done' h dep _ => ?_) fun done' hdone' => ?_
      · exact List.forall_mem_append.2 ⟨hpending, List.forall_mem_singleton.2 hnew⟩
      · intro written done'' hrun
        obtain ⟨hdone'', hdep, hafter⟩ := ih _ h.1.1 h.1.2 dep written done'' hrun
        exact ⟨⟨hdone'', h.2.trans hafter⟩, hdep, fun n hn => (hafter.map Prod.fst).subset hn⟩
      obtain ⟨⟨⟨hdone', hpending'⟩, hbefore⟩, huses, -⟩ := hdone'
      obtain ⟨hpending', hnew'⟩ := List.forall_mem_append.1 hpending'
      have hnew' := List.forall_mem_singleton.1 hnew'
      refine .bind (Q := fun sys => ∃ written, (lib.compile (lib.provided done') written).1 = .ok sys)
        (fun written sys h => ⟨written, h⟩) fun sys hsys => ?_
      obtain ⟨written, hcompile⟩ := hsys
      refine .pure ⟨⟨?_, ?_⟩, ?_, ?_⟩
      · exact hdone'.concat hnew' hfind huses hcompile
      · intro c hc hmem
        rw [List.map_append, List.map_singleton, List.mem_append, List.mem_singleton] at hmem
        rcases hmem with hmem | rfl
        · exact hpending' c hc hmem
        · exact hchain hc
      · simp
      · exact hbefore.trans (List.prefix_append ..)

/-- Compiling libraries gives a sequence of all of them. -/
theorem ensures_compileAll_sequence : Logged.Ensures (compileAll libs) fun done =>
    Sequence libs done ∧ ∀ lib ∈ libs, lib.name ∈ done.map Prod.fst := by
  have hstart : Sequence libs [] := ⟨fun _ _ _ h => absurd h (by simp), .nil⟩
  have hround : ∀ done, Sequence libs done → ∀ lib ∈ libs,
      Logged.Ensures (compileNamed libs (libs.length + 2) [] done lib.name) fun done' =>
        Sequence libs done' ∧ lib.name ∈ done'.map Prod.fst ∧
          ∀ lib : TypeLibrary, lib.name ∈ done.map Prod.fst → lib.name ∈ done'.map Prod.fst := by
    intro done hdone lib _ written done' hrun
    obtain ⟨⟨hdone', -⟩, hname, hkeep⟩ := ensures_sequence _ [] hdone nofun lib.name written done' hrun
    exact ⟨hdone', hname, fun lib hlib => (hkeep.map Prod.fst).subset hlib⟩
  intro written done h
  obtain ⟨hdone, hall, -⟩ := Logged.Ensures.foldlM_forall hstart hround written done h
  exact ⟨hdone, hall⟩

end TypeLibrary

end StrictContract
