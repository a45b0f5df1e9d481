import Mathlib.Data.List.Induction
import StrictContract.Proofs.Journal
import StrictContract.Proofs.TypeLibrary.Cycles
import StrictContract.Proofs.TypeLibrary.Retracing

/-! # Rearranging — authoring order does not matter

Neither the order of the declarations of a library nor that of the libraries decides whether they can
be compiled, or what the names mean. The libraries of a sequence come behind those that they use, so
one that is met in another order only needs what comes before it in the sequence: it is compiled with
libraries that are alike, and is alike itself. -/

namespace StrictContract

open TypeSystem

namespace TypeLibrary

variable {lib lib' : TypeLibrary} {libs libs' : List TypeLibrary}
  {done done' : List (String × SymbolicSystem)} {chain : List String}

/-! ## Libraries in another order -/

/-- Libraries in another **arrangement**: the declarations of each come in some order, and so do the
libraries. -/
def Arranged (libs libs' : List TypeLibrary) : Prop :=
  ∃ mid, List.Forall₂ Rearranged libs mid ∧ mid.Perm libs'

namespace Arranged

theorem symm (h : Arranged libs libs') : Arranged libs' libs := by
  obtain ⟨mid, hmid, hperm⟩ := h
  have hback : List.Forall₂ Rearranged mid libs := hmid.flip.imp fun _ _ h => h.symm
  obtain ⟨mid', hmid', hperm'⟩ := List.perm_comp_forall₂ hperm.symm hback
  exact ⟨mid', hmid', hperm'⟩

theorem length_eq (h : Arranged libs libs') : libs.length = libs'.length := by
  obtain ⟨mid, hmid, hperm⟩ := h
  exact hmid.length_eq.trans hperm.length_eq

theorem exists_mem (h : Arranged libs libs') (hlib : lib ∈ libs) :
    ∃ lib' ∈ libs', lib.Rearranged lib' := by
  obtain ⟨mid, hmid, hperm⟩ := h
  obtain ⟨i, hi, rfl⟩ := List.getElem_of_mem hlib
  have hi' : i < mid.length := hmid.length_eq ▸ hi
  exact ⟨mid[i], hperm.mem_iff.1 (List.getElem_mem hi'), hmid.get hi hi'⟩

theorem names (h : Arranged libs libs') :
    (libs.map TypeLibrary.name).Perm (libs'.map TypeLibrary.name) := by
  obtain ⟨mid, hmid, hperm⟩ := h
  have hsame : libs.map TypeLibrary.name = mid.map TypeLibrary.name := by
    clear hperm
    induction hmid with
    | nil => rfl
    | cons hlib _ ih => rw [List.map_cons, List.map_cons, hlib.name, ih]
  exact hsame ▸ hperm.map TypeLibrary.name

end Arranged

/-! ## Libraries along a sequence -/

/-- What is provided is compiled. -/
theorem lookup_of_mem_provided {e : String × SymbolicSystem} (he : e ∈ lib.provided done) :
    done.lookup e.1 = some e.2 := by
  obtain ⟨dep, -, he⟩ := List.mem_filterMap.1 he
  obtain ⟨sys, hsys, rfl⟩ := Option.map_eq_some_iff.1 he
  exact hsys

/-- What is compiled of the libraries that are used is provided. -/
theorem lookup_provided {dep : String} {sys : SymbolicSystem} (hdep : dep ∈ lib.uses)
    (hsys : done.lookup dep = some sys) : (lib.provided done).lookup dep = some sys := by
  have hmem : (dep, sys) ∈ lib.provided done :=
    List.mem_filterMap.2 ⟨dep, hdep, by rw [hsys]; rfl⟩
  obtain ⟨sys', hsys'⟩ := Option.isSome_iff_exists.1 (isSome_lookup.2 (List.mem_map_of_mem hmem))
  rw [hsys', ← lookup_of_mem_provided (mem_of_lookup hsys'), hsys]

/-- Every library of a sequence is sound. -/
theorem Sequence.sound (h : Sequence libs done)
    (hkeys : ∀ lib ∈ libs, (lib.declarations.map Prod.fst).Nodup) : ∀ e ∈ done, e.2.Sound := by
  have hinitial : ∀ before after, done = before ++ after → ∀ e ∈ before, e.2.Sound := by
    intro before
    induction before using List.reverseRecOn with
    | nil => exact fun _ _ => nofun
    | append_singleton before e ih =>
      intro after hsplit
      rw [List.append_assoc] at hsplit
      have hbefore := ih _ hsplit
      obtain ⟨lib, hfind, -, written, hcompile⟩ := h.compiled before e after hsplit
      refine List.forall_mem_append.2 ⟨hbefore, List.forall_mem_singleton.2 ?_⟩
      exact sound_of_compile (hkeys lib (find?_eq_some hfind).1)
        (fun x hx => hbefore x (mem_of_lookup (lookup_of_mem_provided hx))) hcompile
  exact hinitial done [] (List.append_nil done).symm

/-- Compiled libraries **along** a sequence: each is sound and alike to the one with its name there, and
the libraries on the chain are not compiled. -/
structure Accords (done : List (String × SymbolicSystem)) (chain : List String)
    (done' : List (String × SymbolicSystem)) : Prop where
  alike : ∀ name sys', done'.lookup name = some sys' →
    sys'.Sound ∧ ∃ sys, done.lookup name = some sys ∧ sys.Alike sys'
  pending : ∀ name ∈ chain, name ∉ done'.map Prod.fst

/-- A library that is alike goes on along the sequence. -/
theorem Accords.concat {name : String} {sys sys' : SymbolicSystem}
    (h : Accords done (chain ++ [name]) done') (hnew : name ∉ chain)
    (hsys : done.lookup name = some sys) (halike : sys.Alike sys') (hsound : sys'.Sound) :
    Accords done chain (done' ++ [(name, sys')]) := by
  constructor
  · intro n s hn
    rw [List.lookup_append, Option.or_eq_some_iff] at hn
    rcases hn with hold | ⟨-, hlast⟩
    · exact h.alike n s hold
    · obtain ⟨rfl, rfl⟩ : n = name ∧ s = sys' := by simpa using mem_of_lookup hlast
      exact ⟨hsound, sys, hsys, halike⟩
  · intro c hc hmem
    rw [List.map_append, List.map_singleton, List.mem_append, List.mem_singleton] at hmem
    rcases hmem with hmem | rfl
    · exact h.pending c (List.mem_append_left _ hc) hmem
    · exact hnew hc

/-- A library is provided with alike libraries along a sequence. -/
theorem alikeUsed_provided {before : List (String × SymbolicSystem)} (huses : lib.uses = lib'.uses)
    (h : ∀ dep ∈ lib.uses, ∃ sys sys', before.lookup dep = some sys ∧ done'.lookup dep = some sys' ∧
      sys.Alike sys') : AlikeUsed (lib.provided before) (lib'.provided done') := by
  unfold provided
  rw [← huses]
  generalize lib.uses = deps at h
  induction deps with
  | nil => exact .nil
  | cons dep deps ih =>
    rw [List.forall_mem_cons] at h
    obtain ⟨sys, sys', hsys, hsys', halike⟩ := h.1
    simp only [List.filterMap_cons, hsys, hsys', Option.map_some]
    exact .cons ⟨rfl, halike⟩ (ih h.2)

/-- A loop goes on along a sequence when its rounds do. -/
theorem exists_foldlM {f : List (String × SymbolicSystem) → String →
      Logged (List (String × SymbolicSystem))} {deps : List String}
    (h : ∀ dep ∈ deps, ∀ done', Accords done chain done' → ∃ done'',
      Logged.Yields (f done' dep) (.ok done'') ∧ Accords done chain done'' ∧
        dep ∈ done''.map Prod.fst ∧ done' <+: done'') (hdone' : Accords done chain done') :
    ∃ done'', Logged.Yields (deps.foldlM f done') (.ok done'') ∧ Accords done chain done'' ∧
      (∀ dep ∈ deps, dep ∈ done''.map Prod.fst) ∧ done' <+: done'' := by
  induction deps generalizing done' with
  | nil => exact ⟨done', .pure done', hdone', nofun, List.prefix_rfl⟩
  | cons dep deps ih =>
    rw [List.forall_mem_cons] at h
    obtain ⟨done₁, hrun, haccords, hdep, hbefore⟩ := h.1 done' hdone'
    obtain ⟨done₂, hrest, haccords', hdeps, hafter⟩ := ih h.2 haccords
    refine ⟨done₂, ?_, haccords', List.forall_mem_cons.2 ⟨?_, hdeps⟩, hbefore.trans hafter⟩
    · rw [List.foldlM_cons]
      exact hrun.bind_ok hrest
    · exact (hafter.map Prod.fst).subset hdep

/-- A name among the first of a sequence is one behind still fewer, which hold what its library uses. -/
theorem Sequence.exists_earlier (h : Sequence libs done) {k : Nat} {name : String}
    (hname : name ∈ (done.take k).map Prod.fst) : ∃ j < k, ∃ lib sys, find? libs name = some lib ∧
      done.lookup name = some sys ∧ name ∉ (done.take j).map Prod.fst ∧
      (∀ dep ∈ lib.uses, dep ∈ (done.take j).map Prod.fst) ∧
      ∃ written, (lib.compile (lib.provided (done.take j)) written).1 = .ok sys := by
  obtain ⟨⟨name, sys⟩, he, rfl⟩ := List.mem_map.1 hname
  obtain ⟨j, hj, hnew, after, hsplit⟩ := exists_split_of_mem_take h.nodup he
  obtain ⟨lib, hfind, huses, hcompile⟩ := h.compiled _ _ _ hsplit
  have hlookup := (lookup_eq_some_iff_mem h.nodup).2 (List.mem_of_mem_take he)
  exact ⟨j, hj, lib, sys, hfind, hlookup, hnew, huses, hcompile⟩

/-- Every library of a sequence is compiled along it, in any arrangement, if no library on the chain
comes before it: what it uses comes before it, too. -/
theorem exists_compileNamed (h : Sequence libs done) (harranged : Arranged libs libs')
    (hnames : (libs.map TypeLibrary.name).Nodup)
    (hkeys : ∀ lib ∈ libs, (lib.declarations.map Prod.fst).Nodup) (k : Nat) (chain : List String)
    (hchain : ∀ c ∈ chain, c ∉ (done.take k).map Prod.fst) {fuel : Nat} (hfuel : k ≤ fuel)
    {name : String} (hname : name ∈ (done.take k).map Prod.fst) (haccords : Accords done chain done') :
    ∃ done'', Logged.Yields (compileNamed libs' fuel chain done' name) (.ok done'') ∧
      Accords done chain done'' ∧ name ∈ done''.map Prod.fst ∧ done' <+: done'' := by
  induction k using Nat.strongRecOn generalizing chain fuel name done' with
  | ind k ih =>
  obtain ⟨j, hj, lib, sys, hfind, hsys, hnew, huses, written, hcompile⟩ := h.exists_earlier hname
  obtain ⟨fuel, rfl⟩ := Nat.exists_eq_add_one_of_ne_zero
    (Nat.ne_of_gt (Nat.lt_of_lt_of_le (Nat.zero_lt_of_lt hj) hfuel))
  rw [compileNamed, namedStep]
  by_cases hknown : name ∈ done'.map Prod.fst
  · rw [if_pos (isSome_lookup.2 hknown)]
    exact ⟨done', .pure done', haccords, hknown, List.prefix_rfl⟩
  have hfree : name ∉ chain := fun hmem => hchain name hmem hname
  obtain ⟨lib', hlib', hrearranged⟩ := harranged.exists_mem (find?_eq_some hfind).1
  have hfind' : find? libs' name = some lib' := by
    refine (find?_eq_some_iff (harranged.names.nodup_iff.1 hnames)).2 ⟨hlib', ?_⟩
    rw [← hrearranged.name, (find?_eq_some hfind).2]
  rw [if_neg (mt isSome_lookup.1 hknown)]
  dsimp only
  rw [if_neg (by rwa [List.contains_iff_mem]), hfind']
  dsimp only
  -- while its uses are compiled, the name waits on the chain
  have hpending : Accords done (chain ++ [name]) done' := ⟨haccords.alike,
    List.forall_mem_append.2 ⟨haccords.pending, List.forall_mem_singleton.2 hknown⟩⟩
  have hwaiting : ∀ c ∈ chain ++ [name], c ∉ (done.take j).map Prod.fst := by
    refine List.forall_mem_append.2 ⟨fun c hc hmem => hchain c hc ?_, List.forall_mem_singleton.2 hnew⟩
    exact ((List.take_prefix_take_left (Nat.le_of_lt hj)).map Prod.fst).subset hmem
  have hround : ∀ dep ∈ lib'.uses, ∀ done', Accords done (chain ++ [name]) done' → ∃ done'',
      Logged.Yields (compileNamed libs' fuel (chain ++ [name]) done' dep) (.ok done'') ∧
        Accords done (chain ++ [name]) done'' ∧ dep ∈ done''.map Prod.fst ∧ done' <+: done'' :=
    fun dep hdep done' hdone' => ih j hj (chain ++ [name]) hwaiting (by omega)
      (huses dep (hrearranged.uses ▸ hdep)) hdone'
  obtain ⟨done₁, hloop, haccords₁, hdeps, hbefore⟩ := exists_foldlM hround hpending
  have hused : AlikeUsed (lib.provided (done.take j)) (lib'.provided done₁) := by
    refine alikeUsed_provided hrearranged.uses fun dep hdep => ?_
    obtain ⟨sys, hsys⟩ := Option.isSome_iff_exists.1 (isSome_lookup.2 (huses dep hdep))
    obtain ⟨sys', hsys'⟩ :=
      Option.isSome_iff_exists.1 (isSome_lookup.2 (hdeps dep (hrearranged.uses ▸ hdep)))
    obtain ⟨-, sys₁, hsys₁, halike⟩ := haccords₁.alike dep sys' hsys'
    have hsame := (lookup_eq_some_iff_mem h.nodup).2 (List.mem_of_mem_take (mem_of_lookup hsys))
    obtain rfl := Option.some.inj (hsame.symm.trans hsys₁)
    exact ⟨sys, sys', hsys, hsys', halike⟩
  have hsound : ∀ e ∈ lib.provided (done.take j), e.2.Sound := fun e he =>
    h.sound hkeys e (List.mem_of_mem_take (mem_of_lookup (lookup_of_mem_provided he)))
  have hsound' : ∀ e ∈ lib'.provided done₁, e.2.Sound := fun e he =>
    (haccords₁.alike e.1 e.2 (lookup_of_mem_provided he)).1
  obtain ⟨sys', hrun, hsys', halike⟩ := exists_compile_alike hrearranged
    (hkeys lib (find?_eq_some hfind).1) hused hsound hsound' hcompile
  refine ⟨done₁ ++ [(name, sys')], ?_, haccords₁.concat hfree hsys halike hsys', by simp,
    hbefore.trans (List.prefix_append ..)⟩
  exact hloop.bind_ok (Logged.Yields.bind_ok hrun (.pure _))

/-- Where libraries compile, they do in any arrangement, and the results are alike. -/
theorem exists_compileAll (harranged : Arranged libs libs')
    (hnames : (libs.map TypeLibrary.name).Nodup)
    (hkeys : ∀ lib ∈ libs, (lib.declarations.map Prod.fst).Nodup) {written : List Event}
    (hdone : (compileAll libs written).1 = .ok done) :
    ∃ done', Logged.Yields (compileAll libs') (.ok done') ∧ ∀ name sys', done'.lookup name = some sys' →
      sys'.Sound ∧ ∃ sys, done.lookup name = some sys ∧ sys.Alike sys' := by
  obtain ⟨hsequence, hall⟩ := ensures_compileAll_sequence written done hdone
  have hfuel : done.length ≤ libs'.length + 2 := by
    have hlength := (hsequence.perm_names hnames hall).length_eq
    rw [List.length_map, List.length_map, harranged.length_eq] at hlength
    omega
  have hround : ∀ name ∈ libs'.map TypeLibrary.name, ∀ done', Accords done [] done' → ∃ done'',
      Logged.Yields (compileNamed libs' (libs'.length + 2) [] done' name) (.ok done'') ∧
        Accords done [] done'' ∧ name ∈ done''.map Prod.fst ∧ done' <+: done'' := by
    intro name hname done' haccords
    obtain ⟨lib, hlib, rfl⟩ := List.mem_map.1 (harranged.names.mem_iff.2 hname)
    refine exists_compileNamed hsequence harranged hnames hkeys done.length [] nofun hfuel ?_ haccords
    rw [List.take_length]
    exact hall lib hlib
  have hstart : Accords done [] [] := ⟨by simp, nofun⟩
  obtain ⟨done', hrun, haccords, -⟩ := exists_foldlM hround hstart
  rw [List.foldlM_map] at hrun
  exact ⟨done', hrun, haccords.alike⟩

/-- The names of every library of a sequence are different. -/
theorem Sequence.nodup_names (h : Sequence libs done) {e : String × SymbolicSystem} (he : e ∈ done) :
    (e.2.names.map Prod.fst).Nodup := by
  obtain ⟨before, after, hsplit⟩ := List.append_of_mem he
  obtain ⟨lib, -, -, written, hcompile⟩ := h.compiled before e after hsplit
  exact (finished_of_compile hcompile).course.nodup

/-- **Authoring order does not matter.** Let libraries with different names, none of which declares a
name twice, be arranged in another way: the declarations inside each of them, and the libraries. Then
they compile if the others do. In both cases these are all libraries, and each has the same names with
the same ids, resolves every name alike, and holds types under the same ids, which are the same types
unless two of them clash. -/
theorem compileAll_of_arranged (harranged : Arranged libs libs')
    (hnames : (libs.map TypeLibrary.name).Nodup)
    (hkeys : ∀ lib ∈ libs, (lib.declarations.map Prod.fst).Nodup) :
    (∀ written written', (∃ done, (compileAll libs written).1 = .ok done) ↔
      ∃ done', (compileAll libs' written').1 = .ok done') ∧
    ∀ written written' done done', (compileAll libs written).1 = .ok done →
      (compileAll libs' written').1 = .ok done' →
        (done.map Prod.fst).Perm (libs.map TypeLibrary.name) ∧
        (done'.map Prod.fst).Perm (libs.map TypeLibrary.name) ∧
        ∀ name sys sys', (name, sys) ∈ done → (name, sys') ∈ done' →
          sys.names.Perm sys'.names ∧ (∀ ty, sys.resolve ty = sys'.resolve ty) ∧
          (∀ sid, sys.types.contains sid = true ↔ sys'.types.contains sid = true) ∧
          (sys.types.entries.Perm sys'.types.entries ∨ sys.types.Clash sys'.types) := by
  have hnames' := harranged.names.nodup_iff.1 hnames
  have hkeys' : ∀ lib ∈ libs', (lib.declarations.map Prod.fst).Nodup := by
    intro lib' hlib'
    obtain ⟨lib, hlib, hrearranged⟩ := harranged.symm.exists_mem hlib'
    exact (hrearranged.declarations.map Prod.fst).nodup_iff.2 (hkeys lib hlib)
  refine ⟨fun written written' => ⟨fun ⟨done, hdone⟩ => ?_, fun ⟨done, hdone⟩ => ?_⟩,
    fun written written' done done' hdone hdone' => ?_⟩
  · obtain ⟨done', hrun, -⟩ := exists_compileAll harranged hnames hkeys hdone
    exact ⟨done', hrun written'⟩
  · obtain ⟨done', hrun, -⟩ := exists_compileAll harranged.symm hnames' hkeys' hdone
    exact ⟨done', hrun written⟩
  obtain ⟨hsequence, hall⟩ := ensures_compileAll_sequence written done hdone
  obtain ⟨hsequence', hall'⟩ := ensures_compileAll_sequence written' done' hdone'
  refine ⟨hsequence.perm_names hnames hall,
    (hsequence'.perm_names hnames' hall').trans harranged.names.symm,
    fun name sys sys' hsys hsys' => ?_⟩
  obtain ⟨done'', hrun, halike⟩ := exists_compileAll harranged hnames hkeys hdone
  obtain rfl := Except.ok.inj (hdone'.symm.trans (hrun written'))
  obtain ⟨hsound', sys₁, hsys₁, halike⟩ :=
    halike name sys' ((lookup_eq_some_iff_mem hsequence'.nodup).2 hsys')
  obtain rfl : sys = sys₁ :=
    Option.some.inj (((lookup_eq_some_iff_mem hsequence.nodup).2 hsys).symm.trans hsys₁)
  have hsound := hsequence.sound hkeys _ hsys
  have hnodup := hsequence.nodup_names hsys
  have hnodup' := hsequence'.nodup_names hsys'
  refine ⟨?_, halike.resolve_eq, halike.types, hsound.types.perm_or_clash hsound'.types halike.types⟩
  refine (List.perm_ext_iff_of_nodup (nodup_of_keys hnodup) (nodup_of_keys hnodup')).2 ?_
  rintro ⟨n, sid⟩
  rw [← lookup_eq_some_iff_mem hnodup, ← lookup_eq_some_iff_mem hnodup', halike.names]

/-- Libraries of which one uses the other one, and both declare two names. -/
def stacked : List TypeLibrary := [
  { name := "Upper", uses := ["Lower"], description := "",
    declarations := Declaration.named [("Page", .text "Line"), ("Line", .text "Lower.Word")] },
  { name := "Lower", uses := [], description := "",
    declarations := Declaration.named [("Word", .text "Half"), ("Half", .text "U16")] }]

/-- The same libraries, each with its declarations the other way round. -/
def restacked : List TypeLibrary :=
  (stacked.map fun lib => { lib with declarations := lib.declarations.reverse }).reverse

/-- Two libraries that are written down the other way round resolve their names alike. -/
theorem compileAll_of_arranged_restacked : Arranged stacked restacked ∧
    (stacked.map TypeLibrary.name).Nodup ∧
    (∀ lib ∈ stacked, (lib.declarations.map Prod.fst).Nodup) ∧
    ∃ done done', (compileAll stacked []).1 = .ok done ∧ (compileAll restacked []).1 = .ok done' ∧
      ∀ name sys sys', (name, sys) ∈ done → (name, sys') ∈ done' →
        ∀ ty, sys.resolve ty = sys'.resolve ty := by
  have harranged : Arranged stacked restacked := by
    refine ⟨_, List.forall₂_map_right_iff.2 (List.forall₂_same.2 fun lib _ => ?_),
      (List.reverse_perm _).symm⟩
    exact ⟨rfl, rfl, (List.reverse_perm _).symm⟩
  have hnames : (stacked.map TypeLibrary.name).Nodup := by decide
  have hkeys : ∀ lib ∈ stacked, (lib.declarations.map Prod.fst).Nodup := by
    simp [stacked, Declaration.named]
  have hsome : (compileAll stacked []).1.toOption.isSome = true := by with_unfolding_all rfl
  obtain ⟨done, hdone⟩ := Option.isSome_iff_exists.1 hsome
  have hcompile := toOption_eq_some.1 hdone
  obtain ⟨hsucceeds, hsame⟩ := compileAll_of_arranged harranged hnames hkeys
  obtain ⟨done', hcompile'⟩ := (hsucceeds [] []).1 ⟨done, hcompile⟩
  obtain ⟨-, -, hsame⟩ := hsame [] [] done done' hcompile hcompile'
  exact ⟨harranged, hnames, hkeys, done, done', hcompile, hcompile',
    fun name sys sys' hsys hsys' => (hsame name sys sys' hsys hsys').2.1⟩

end TypeLibrary

end StrictContract
