import Mathlib.Algebra.Order.BigOperators.Group.List
import Mathlib.Algebra.Order.Group.Nat
import StrictContract.Proofs.TypeLibrary.Fitting
import StrictContract.Proofs.TypeLibrary.Rearranging

/-! # Building — libraries that compile

An **estimate** follows the references of a declaration as the compiler does, asks whether its form
fits, and counts the definitions that are inserted at most; there is no room for what cannot be
compiled. Libraries one behind another have **bounds** on the numbers of their types, and they compile
where there is room for these. So a library can be found to compile without any of its ids. -/

namespace StrictContract

open TypeSystem

/-! ## References -/

namespace TypeLibrary

open Compiling (Delivers delivers_of_capacity_lt delivers_pure)

variable {lib : TypeLibrary} {used : List (String × SymbolicSystem)} {P : Workbench → Prop}

/-- The number of definitions that compiling a declaration inserts at most. -/
def declarationEstimate (cost : String → Nat) : Value → Nat
  | .text ty => cost ty
  | decl =>
    match Form.ofValue? decl with
    | some form => form.estimate cost
    | none => capacity + 1

/-- The number of definitions that compiling a reference inserts at most, if just the names of other
libraries are resolved of which this is said. There is no room for what cannot be compiled. -/
def estimate (lib : TypeLibrary) (resolves : String → String → Bool) : Nat → List String → String → Nat
  | 0, _, _ => capacity + 1
  | fuel + 1, chain, ty =>
    if (Codec.builtin? ty).isSome then 1
    else
      match Text.cutFirst? '.' ty with
      | some (library, name) => if resolves library name then 0 else capacity + 1
      | none =>
        match Value.lookup? (.text ty) lib.declarations with
        | some decl =>
          if chain.contains ty then capacity + 1
          else declarationEstimate (lib.estimate resolves fuel (ty :: chain)) decl
        | none => capacity + 1

theorem delivers_compileDeclaration {ref : Value → String → Compiling SemId} {cost : String → Nat}
    (hP : Persists P) (href : ∀ ty place, Delivers (cost ty) P (ref (.text ty) place)
      fun w sid => w.types.contains sid = true) (decl : Value) (name : String) :
    Delivers (declarationEstimate cost decl) P (compileDeclaration ref decl name)
      fun w sid => w.types.contains sid = true := by
  unfold declarationEstimate
  split
  · rename_i ty
    exact href ty name
  · split
    · rename_i form hform
      cases decl with
      | map entries =>
        rw [compileDeclaration, Form.compileForm_eq hform]
        exact Form.delivers_compile hP href form name
      | _ => cases hform
    · exact delivers_of_capacity_lt (Nat.lt_succ_self _)

/-- Compiling a reference delivers its id, if the names of other libraries are resolved. -/
theorem delivers_compileReference {resolves : String → String → Bool} (hP : Persists P)
    (hresolves : ∀ library name, resolves library name = true → ∃ sys sid,
      used.lookup library = some sys ∧ sys.resolve name = .ok sid ∧
        ∀ w, P w → w.types.contains sid = true) (fuel : Nat) (chain : List String) (ty place : String) :
    Delivers (lib.estimate resolves fuel chain ty) P
      (compileReference lib used fuel chain (.text ty) place) fun w sid => w.types.contains sid = true := by
  have hfull : ∀ {m : Compiling SemId} {Q : Workbench → SemId → Prop}, Delivers (capacity + 1) P m Q :=
    delivers_of_capacity_lt (Nat.lt_succ_self _)
  -- the estimate follows the same references as the compiler
  induction fuel generalizing chain ty place with
  | zero => exact hfull
  | succ fuel ih =>
    rw [estimate]
    cases hbuiltin : Codec.builtin? ty with
    | some builtin =>
      obtain ⟨d, hderive, hd, hrefs⟩ := Codec.exists_fits_of_builtin hbuiltin
      rw [compileReference_builtin hbuiltin, hderive]
      refine (Compiling.delivers_insert hd fun _ _ => ?_).imp fun w sid h => h.held
      rw [hrefs]
      exact List.forall_mem_nil _
    | none =>
    cases hcut : Text.cutFirst? '.' ty with
    | some parts =>
      obtain ⟨library, name⟩ := parts
      dsimp only [Option.isSome_none]
      rw [if_neg Bool.false_ne_true, compileReference_qualified hbuiltin hcut]
      split
      · rename_i hresolved
        obtain ⟨sys, sid, hsys, hsid, hheld⟩ := hresolves library name hresolved
        rw [hsys]
        dsimp only
        rw [hsid]
        exact delivers_pure hheld
      · exact hfull
    | none =>
    dsimp only [Option.isSome_none]
    rw [if_neg Bool.false_ne_true]
    intro w hheld hw hroom
    -- a name that is there needs no room; another one is compiled, unless it is under way already
    rw [compileReference_declared hbuiltin hcut]
    cases hknown : w.names.lookup ty with
    | some sid =>
      exact ⟨sid, w, rfl, .refl w, hheld, Nat.le_add_right .., hheld _ (mem_of_lookup hknown)⟩
    | none =>
    cases hdecl : Value.lookup? (.text ty) lib.declarations with
    | none =>
      rw [hdecl] at hroom
      exact hfull w hheld hw hroom
    | some decl =>
    rw [hdecl] at hroom
    dsimp only at hroom ⊢
    by_cases hchain : chain.contains ty = true
    · rw [if_pos hchain] at hroom
      exact absurd hroom (by omega)
    · rw [if_neg hchain] at hroom
      rw [if_neg hchain, if_neg hchain]
      obtain ⟨sid, w', hrun, hgrows, hheld', hsize, hsid⟩ :=
        (delivers_compileDeclaration hP (ih (ty :: chain)) decl ty).placed ty w hheld hw hroom
      refine ⟨sid, { w' with names := w'.names ++ [(ty, sid)] }, ?_,
        hgrows.trans ⟨.refl _, List.prefix_append ..⟩, ?_, hsize, hsid⟩
      · rw [bind_apply, hrun]
        rfl
      · exact List.forall_mem_append.2 ⟨hheld', List.forall_mem_singleton.2 hsid⟩

/-! ## One library -/

/-- The number of definitions that compiling a library inserts at most. -/
def insertions (lib : TypeLibrary) (resolves : String → String → Bool) : Nat :=
  (lib.declarations.map fun e =>
    match e.1 with
    | .text ty => lib.estimate resolves (lib.declarations.length + 1) [] ty
    | _ => capacity + 1).sum

theorem delivers_compileAllDeclarations {resolves : String → String → Bool} (hP : Persists P)
    (hresolves : ∀ library name, resolves library name = true → ∃ sys sid,
      used.lookup library = some sys ∧ sys.resolve name = .ok sid ∧
        ∀ w, P w → w.types.contains sid = true) :
    Delivers (lib.insertions resolves) P (compileAllDeclarations lib used) fun _ _ => True := by
  refine Compiling.delivers_forM hP _ fun e _ => ?_
  obtain ⟨key, decl⟩ := e
  cases key with
  | text ty =>
    show Delivers (lib.estimate resolves (lib.declarations.length + 1) [] ty + 0) P _ _
    refine (delivers_compileReference hP hresolves _ [] ty _).bind hP fun _ => ?_
    exact delivers_pure fun _ _ => trivial
  | _ => exact delivers_of_capacity_lt (Nat.lt_succ_self _)

/-- The types of used libraries for which there is room are merged. -/
theorem exists_mergeUsed_of_room {w : Workbench}
    (h : w.types.size + (used.map fun e => e.2.types.size).sum ≤ capacity) :
    ∃ w', mergeUsed used w = (.ok (), w') ∧
      w'.types.size ≤ w.types.size + (used.map fun e => e.2.types.size).sum := by
  induction used generalizing w with
  | nil => exact ⟨w, rfl, Nat.le_refl _⟩
  | cons e used ih =>
    rw [List.map_cons, List.sum_cons] at h ⊢
    obtain ⟨n, ts, hmerge, hsize⟩ :=
      exists_merge_of_room (show w.types.size + e.2.types.size ≤ capacity by omega)
    obtain ⟨w', hrun, hsize'⟩ := ih (w := { w with types := ts }) (by dsimp only; omega)
    dsimp only at hsize'
    refine ⟨w', ?_, by omega⟩
    rw [mergeUsed, bind_apply, Compiling.grow, hmerge]
    exact hrun

/-- **A library compiles** where there is room for the types that it uses and for those that it is
estimated to insert. Every name that it gives has an id that is there. -/
theorem exists_compile {resolves : String → String → Bool}
    (hprovided : ∀ name ∈ lib.uses, (used.lookup name).isSome = true)
    (hresolves : ∀ library name, resolves library name = true → ∃ sys sid,
      used.lookup library = some sys ∧ sys.resolve name = .ok sid ∧ sys.types.contains sid = true)
    (hroom : (used.map fun e => e.2.types.size).sum + lib.insertions resolves ≤ capacity)
    (written : List Event) :
    ∃ sys, (lib.compile used written).1 = .ok sys ∧
      (∀ e ∈ sys.names, sys.types.contains e.2 = true) ∧
      sys.types.size ≤ (used.map fun e => e.2.types.size).sum + lib.insertions resolves := by
  have hempty : TypeSystem.empty.size = 0 := rfl
  have hmerges : ∃ w', mergeUsed used ⟨.empty, []⟩ = (.ok (), w') ∧
      w'.types.size ≤ TypeSystem.empty.size + (used.map fun e => e.2.types.size).sum :=
    exists_mergeUsed_of_room (by dsimp only; omega)
  obtain ⟨bench, hmerge, hsize⟩ := hmerges
  have hheld : bench.Held := by
    rw [Workbench.Held, names_eq_nil_of_mergeUsed hmerge]
    exact List.forall_mem_nil _
  -- the types of the used libraries are there from the first declaration on
  let P : Workbench → Prop := fun w => ∀ e ∈ used, e.2.types.Within w.types
  have hP : Persists P := fun w w' hgrows hw e he =>
    (hw e he).trans hgrows.types.isExtension.within
  have hdelivers : Delivers (lib.insertions resolves) P (compileAllDeclarations lib used)
      fun _ _ => True :=
    delivers_compileAllDeclarations hP fun library name hresolved => by
      obtain ⟨sys, sid, hsys, hsid, hin⟩ := hresolves library name hresolved
      exact ⟨sys, sid, hsys, hsid, fun w hw => hw _ (mem_of_lookup hsys) sid hin⟩
  obtain ⟨_, done, hrun, -, hdone, hsize', -⟩ :=
    hdelivers bench hheld (within_of_mergeUsed hmerge).2 (by omega)
  exact ⟨⟨lib.name, done.types, done.names⟩,
    compile_eq_ok.2 ⟨hprovided, bench, done, hmerge, hrun, rfl⟩, hdone, by dsimp only; omega⟩

/-! ## Several libraries -/

section Several

variable {libs : List TypeLibrary} {known : List (TypeLibrary × Nat)}
  {done : List (String × SymbolicSystem)}

/-- Whether a name is declared by one of the libraries that are used. -/
def resolvesAmong (known : List (TypeLibrary × Nat)) (lib : TypeLibrary) (library name : String) :
    Bool :=
  lib.uses.contains library &&
    match known.find? fun e => e.1.name == library with
    | some e => (Text.cutLast? '.' name).isNone && (Codec.builtin? name).isNone &&
        (Text.cutFirst? '.' name).isNone && (Value.lookup? (.text name) e.1.declarations).isSome
    | none => false

/-- The number of types of a known library at most. -/
def knownBound (known : List (TypeLibrary × Nat)) (name : String) : Nat :=
  match known.find? fun e => e.1.name == name with
  | some e => e.2
  | none => capacity + 1

/-- The number of types of a library at most that comes behind the known ones. There is no room for a
second library of one name. -/
def bound (known : List (TypeLibrary × Nat)) (lib : TypeLibrary) : Nat :=
  if known.any fun e => e.1.name == lib.name then capacity + 1
  else (lib.uses.map (knownBound known)).sum + lib.insertions (resolvesAmong known lib)

/-- Libraries with their bounds, each behind those before it. -/
def bounds : List (TypeLibrary × Nat) → List TypeLibrary → List (TypeLibrary × Nat)
  | known, [] => known
  | known, lib :: rest => bounds (known ++ [(lib, bound known lib)]) rest

/-- A compiled library that keeps its bound. -/
structure Built (e : TypeLibrary × Nat) (s : String × SymbolicSystem) : Prop where
  name : s.1 = e.1.name
  compiled : ∃ used written, (e.1.compile used written).1 = .ok s.2
  held : ∀ x ∈ s.2.names, s.2.types.contains x.2 = true
  small : s.2.types.size ≤ e.2

/-- A known library is there when all are built. -/
theorem exists_built (h : List.Forall₂ Built known done) {name : String} {e : TypeLibrary × Nat}
    (he : known.find? (fun e => e.1.name == name) = some e) :
    ∃ sys, done.lookup name = some sys ∧ Built e (name, sys) := by
  induction h with
  | nil => cases he
  | @cons k s known done hks _ ih =>
    by_cases hname : k.1.name = name
    · rw [List.find?_cons_of_pos (by simpa using hname)] at he
      obtain rfl := Option.some.inj he
      have hs : s = (name, s.2) := Prod.ext (hks.name.trans hname) rfl
      refine ⟨s.2, ?_, hs ▸ hks⟩
      rw [hs, List.lookup_cons_self]
    · rw [List.find?_cons_of_neg (by simpa using hname)] at he
      obtain ⟨sys, hsys, hbuilt⟩ := ih he
      refine ⟨sys, ?_, hbuilt⟩
      rwa [Table.lookup_cons_eq_ite, if_neg fun heq => hname (hks.name.symm.trans heq.symm)]

/-- Built libraries have the names of the known ones. -/
theorem names_of_built (h : List.Forall₂ Built known done) :
    done.map Prod.fst = known.map fun e => e.1.name := by
  rw [← List.forall₂_eq_eq_eq, List.forall₂_map_left_iff, List.forall₂_map_right_iff]
  exact h.flip.imp fun _ _ hbuilt => hbuilt.name

/-- A name with a bound is that of a library which is there. -/
theorem exists_built_of_bound (h : List.Forall₂ Built known done) {name : String}
    (hbound : knownBound known name ≤ capacity) :
    ∃ e sys, known.find? (fun e => e.1.name == name) = some e ∧ done.lookup name = some sys ∧
      Built e (name, sys) ∧ sys.types.size ≤ knownBound known name := by
  cases hfind : known.find? fun e => e.1.name == name with
  | none =>
    rw [knownBound, hfind] at hbound
    exact absurd hbound (Nat.not_succ_le_self _)
  | some e =>
    obtain ⟨sys, hsys, hbuilt⟩ := exists_built h hfind
    refine ⟨e, sys, rfl, hsys, hbuilt, ?_⟩
    rw [knownBound, hfind]
    exact hbuilt.small

/-- The names that are resolved among the known libraries are there. -/
theorem exists_resolve (h : List.Forall₂ Built known done) {library name : String}
    (hresolved : resolvesAmong known lib library name = true) : ∃ sys sid,
      (lib.provided done).lookup library = some sys ∧ sys.resolve name = .ok sid ∧
        sys.types.contains sid = true := by
  unfold resolvesAmong at hresolved
  rw [Bool.and_eq_true, List.contains_iff_mem] at hresolved
  obtain ⟨hused, hresolved⟩ := hresolved
  cases hfind : known.find? fun e => e.1.name == library with
  | none =>
    rw [hfind] at hresolved
    cases hresolved
  | some e =>
    rw [hfind] at hresolved
    simp only [Bool.and_eq_true, Option.isNone_iff_eq_none] at hresolved
    obtain ⟨⟨⟨hplain, hordinary⟩, hcut⟩, hdeclared⟩ := hresolved
    obtain ⟨decl, hdecl⟩ := Option.isSome_iff_exists.1 hdeclared
    obtain ⟨sys, hsys, hbuilt⟩ := exists_built h hfind
    obtain ⟨used, written, hcompile⟩ := hbuilt.compiled
    obtain ⟨sid, hsid⟩ := (finished_of_compile hcompile).exists_lookup ⟨hordinary, hcut⟩ hdecl
    refine ⟨sys, sid, lookup_provided hused hsys, ?_, hbuilt.held _ (mem_of_lookup hsid)⟩
    rw [SymbolicSystem.resolve, hplain]
    dsimp only
    rw [SymbolicSystem.resolveLocal, hsid]

/-- A library for which there is room is built behind the known ones. -/
theorem exists_compile_of_bound (h : List.Forall₂ Built known done)
    (hbound : bound known lib ≤ capacity) (written : List Event) :
    lib.name ∉ done.map Prod.fst ∧ (∀ dep ∈ lib.uses, (done.lookup dep).isSome = true) ∧
      ∃ sys, (lib.compile (lib.provided done) written).1 = .ok sys ∧
        Built (lib, bound known lib) (lib.name, sys) := by
  have hnew : known.any (fun e => e.1.name == lib.name) = false :=
    Bool.eq_false_iff.2 fun hany => by
      rw [bound, if_pos hany] at hbound
      exact Nat.not_succ_le_self _ hbound
  rw [bound, hnew, if_neg Bool.false_ne_true] at hbound ⊢
  have hknown : ∀ dep ∈ lib.uses, knownBound known dep ≤ capacity := fun dep hdep =>
    Nat.le_trans (List.single_le_sum (fun _ _ => Nat.zero_le _) _
      (List.mem_map_of_mem hdep)) (Nat.le_trans (Nat.le_add_right ..) hbound)
  have hthere : ∀ dep ∈ lib.uses, ∃ sys, done.lookup dep = some sys ∧
      sys.types.size ≤ knownBound known dep := fun dep hdep => by
    obtain ⟨e, sys, -, hsys, -, hsize⟩ := exists_built_of_bound h (hknown dep hdep)
    exact ⟨sys, hsys, hsize⟩
  have hsizes : ∀ deps ⊆ lib.uses, ((deps.filterMap fun dep => (done.lookup dep).map fun sys =>
      (dep, sys)).map fun e => e.2.types.size).sum ≤ (deps.map (knownBound known)).sum := by
    intro deps hdeps
    induction deps with
    | nil => exact Nat.le_refl _
    | cons dep deps ih =>
      obtain ⟨hdep, hdeps⟩ := List.cons_subset.1 hdeps
      obtain ⟨sys, hsys, hsize⟩ := hthere dep hdep
      simp only [List.filterMap_cons, hsys, Option.map_some, List.map_cons, List.sum_cons]
      exact Nat.add_le_add hsize (ih hdeps)
  have hroom : ((lib.provided done).map fun e => e.2.types.size).sum +
      lib.insertions (resolvesAmong known lib) ≤
        (lib.uses.map (knownBound known)).sum + lib.insertions (resolvesAmong known lib) :=
    Nat.add_le_add_right (hsizes lib.uses (List.Subset.refl _)) _
  refine ⟨fun hmem => ?_, fun dep hdep => ?_, ?_⟩
  · rw [names_of_built h] at hmem
    obtain ⟨e, he, hname⟩ := List.mem_map.1 hmem
    exact Bool.false_ne_true (hnew.symm.trans (List.any_eq_true.2 ⟨e, he, beq_iff_eq.2 hname⟩))
  · obtain ⟨sys, hsys, -⟩ := hthere dep hdep
    rw [hsys]
    rfl
  · obtain ⟨sys, hcompile, hheld, hsize⟩ := exists_compile (fun dep hdep => by
      obtain ⟨sys, hsys, -⟩ := hthere dep hdep
      rw [lookup_provided hdep hsys]
      rfl) (fun _ _ => exists_resolve h) (Nat.le_trans hroom hbound) written
    exact ⟨sys, hcompile, rfl, ⟨_, written, hcompile⟩, hheld, Nat.le_trans hsize hroom⟩

/-- A library that is there is not compiled again. -/
theorem compileNamed_of_known {name : String} (h : (done.lookup name).isSome = true) (fuel : Nat)
    (chain : List String) : compileNamed libs (fuel + 1) chain done name = pure done := by
  rw [compileNamed, namedStep, if_pos h]

/-- A library behind those that it uses is compiled next. -/
theorem compileNamed_of_provided (hnew : lib.name ∉ done.map Prod.fst)
    (huses : ∀ dep ∈ lib.uses, (done.lookup dep).isSome = true)
    (hfind : find? libs lib.name = some lib) (fuel : Nat) :
    compileNamed libs (fuel + 2) [] done lib.name =
      do return done ++ [(lib.name, ← lib.compile (lib.provided done))] := by
  have hloop : ∀ deps : List String, (∀ dep ∈ deps, (done.lookup dep).isSome = true) →
      deps.foldlM (fun done dep => compileNamed libs (fuel + 1) [lib.name] done dep) done =
        pure done := by
    intro deps
    induction deps with
    | nil => exact fun _ => rfl
    | cons dep deps ih =>
      intro hdeps
      rw [List.forall_mem_cons] at hdeps
      rw [List.foldlM_cons, compileNamed_of_known hdeps.1, pure_bind, ih hdeps.2]
  rw [compileNamed, namedStep, if_neg (by rwa [isSome_lookup]), hfind]
  dsimp only [List.contains_nil, List.nil_append]
  rw [hloop lib.uses huses, pure_bind]
  rfl

/-- The bounds of further libraries are found behind those of the first ones. -/
theorem bounds_append (known : List (TypeLibrary × Nat)) (order order' : List TypeLibrary) :
    bounds known (order ++ order') = bounds (bounds known order) order' := by
  induction order generalizing known with
  | nil => rfl
  | cons lib order ih => rw [List.cons_append, bounds, bounds, ih]

/-- The known libraries stay in front. -/
theorem isPrefix_bounds (known : List (TypeLibrary × Nat)) (order : List TypeLibrary) :
    known <+: bounds known order := by
  induction order generalizing known with
  | nil => exact List.prefix_rfl
  | cons lib order ih => exact (List.prefix_append ..).trans (ih _)

/-- The libraries with bounds are the known ones and those behind them. -/
theorem map_bounds (known : List (TypeLibrary × Nat)) (order : List TypeLibrary) :
    (bounds known order).map Prod.fst = known.map Prod.fst ++ order := by
  induction order generalizing known with
  | nil => rw [bounds, List.append_nil]
  | cons lib order ih => rw [bounds, ih, List.map_append, List.append_assoc]; rfl

/-- Libraries for which there is room are built one behind another. -/
theorem exists_foldlM_of_bounds {order : List TypeLibrary} (h : List.Forall₂ Built known done)
    (hfind : ∀ lib ∈ order, find? libs lib.name = some lib)
    (hroom : ∀ e ∈ bounds known order, e.2 ≤ capacity) (fuel : Nat) (written : List Event) :
    ∃ done' written', order.foldlM (fun done lib => compileNamed libs (fuel + 2) [] done lib.name) done
      written = (.ok done', written') ∧ List.Forall₂ Built (bounds known order) done' := by
  induction order generalizing known done written with
  | nil => exact ⟨done, written, rfl, h⟩
  | cons lib order ih =>
    rw [List.forall_mem_cons] at hfind
    rw [bounds] at hroom ⊢
    have hbound : bound known lib ≤ capacity :=
      hroom _ ((isPrefix_bounds _ order).subset (List.mem_append_right _ (List.mem_singleton.2 rfl)))
    obtain ⟨hnew, huses, sys, hcompile, hbuilt⟩ := exists_compile_of_bound h hbound written
    obtain ⟨done', written', hrest, hall⟩ := ih (List.rel_append h (.cons hbuilt .nil)) hfind.2 hroom
      (lib.compile (lib.provided done) written).2
    refine ⟨done', written', ?_, hall⟩
    have hrun : compileNamed libs (fuel + 2) [] done lib.name written =
        (.ok (done ++ [(lib.name, sys)]), (lib.compile (lib.provided done) written).2) := by
      rw [compileNamed_of_provided hnew huses hfind.1, bind_apply,
        show lib.compile (lib.provided done) written = (.ok sys, _) from Prod.ext hcompile rfl]
      rfl
    rw [List.foldlM_cons, bind_apply, hrun]
    exact hrest

/-- **Libraries compile** where there is room for them, each behind those that it uses. A name that is
repeated behind them is that of a library which is there. -/
theorem exists_compileAll_of_bounds {order : List TypeLibrary} {repeated : List String}
    (hnames : libs.map TypeLibrary.name = order.map TypeLibrary.name ++ repeated)
    (hrepeated : ∀ name ∈ repeated, name ∈ order.map TypeLibrary.name)
    (hfind : ∀ lib ∈ order, find? libs lib.name = some lib)
    (hroom : ∀ e ∈ bounds [] order, e.2 ≤ capacity) (written : List Event) :
    ∃ done written', compileAll libs written = (.ok done, written') ∧
      List.Forall₂ Built (bounds [] order) done := by
  let next : List (String × SymbolicSystem) → String → Logged (List (String × SymbolicSystem)) :=
    fun done name => compileNamed libs (libs.length + 2) [] done name
  have hsplit : compileAll libs = order.foldlM (fun done lib => next done lib.name) [] >>= fun done =>
      repeated.foldlM next done := by
    have hmap : ∀ ls : List TypeLibrary, ls.foldlM (fun done lib => next done lib.name) [] =
        (ls.map TypeLibrary.name).foldlM next [] := fun _ => List.foldlM_map.symm
    show libs.foldlM (fun done lib => next done lib.name) [] = _
    rw [hmap, hmap, hnames, List.foldlM_append]
  obtain ⟨done, written', hrun, hbuilt⟩ :=
    exists_foldlM_of_bounds .nil hfind hroom libs.length written
  have hthere : ∀ name ∈ repeated, (done.lookup name).isSome = true := by
    intro name hname
    have hknown := congrArg (List.map TypeLibrary.name) (map_bounds [] order)
    rw [List.map_map, List.map_nil, List.nil_append] at hknown
    rw [isSome_lookup, names_of_built hbuilt]
    exact hknown ▸ hrepeated name hname
  -- nothing is left to do for the repeated names
  have hrest : ∀ names : List String, (∀ name ∈ names, (done.lookup name).isSome = true) →
      names.foldlM next done = pure done := by
    intro names
    induction names with
    | nil => exact fun _ => rfl
    | cons name names ih =>
      intro h
      rw [List.forall_mem_cons] at h
      rw [List.foldlM_cons, show next done name = pure done from compileNamed_of_known h.1 _ [],
        pure_bind, ih h.2]
  refine ⟨done, written', ?_, hbuilt⟩
  rw [hsplit, bind_apply, hrun]
  dsimp only
  rw [hrest repeated hthere]
  rfl

end Several

end TypeLibrary

end StrictContract
