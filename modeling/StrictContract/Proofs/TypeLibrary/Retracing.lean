import StrictContract.Proofs.TypeLibrary.Unrolling
import StrictContract.Proofs.TypeSystem.Reordering

/-! # Retracing — a library compiled along the course of another compilation

Where a library was compiled, its course says how every declared name comes down to names before it.
A compilation of the same declarations in another order meets the names in another order, too; but
whatever it meets has its place on the course, so it **retraces** a part of it: it gives the same ids,
and it never holds a type that the first one did not end with. So there is room for all of them. -/

namespace StrictContract

open TypeSystem

/-! ## Type systems that hold no more than others -/

namespace TypeSystem

variable {ts ts' u : TypeSystem}

/-- All ids that the one system holds are held by the other one, too. -/
def Within (ts ts' : TypeSystem) : Prop := ∀ sid, ts.contains sid = true → ts'.contains sid = true

theorem Within.trans (h : ts.Within ts') (h' : ts'.Within u) : ts.Within u :=
  fun sid hsid => h' sid (h sid hsid)

theorem Extends.within (h : ts.Extends ts') : ts.Within ts' := fun _ => h.contains

theorem Within.mem_ids (h : ts.Within ts') : ∀ e ∈ ts.entries, e.1 ∈ ts'.entries.map Prod.fst :=
  fun _ he => contains_iff.1 (h _ (contains_iff.2 (List.mem_map_of_mem he)))

/-- What stands in a system is inserted into each one that holds no more, behind what it refers to. -/
theorem Stands.exists_insert {d : Draft} {sid : SemId} (h : u.Stands d sid) (hu : u.size ≤ capacity)
    (hts : ts.WellFormed) (hwithin : ts.Within u)
    (hrefs : ∀ ref ∈ d.references, ts.contains ref = true) :
    ∃ ts', ts.insert d = .ok (sid, ts') ∧ ts'.Within u := by
  have hids : (u.entries.map Prod.fst).length ≤ capacity := by rwa [List.length_map]
  have hroom : ts.contains sid = false → ts.size < capacity := by
    intro hnew
    refine size_lt_capacity hids hts.nodup hwithin.mem_ids (contains_iff.1 h.held) fun hmem => ?_
    rw [contains_iff.2 hmem] at hnew
    cases hnew
  obtain ⟨ts', hinsert⟩ := TypeSystem.exists_insert h.valid hrefs h.named hroom
  refine ⟨ts', hinsert, fun x hx => ?_⟩
  rcases (contains_insert_iff hinsert).1 hx with hold | hid
  · exact hwithin x hold
  · exact Except.ok.inj (h.named.symm.trans hid) ▸ h.held

/-- A system within another one is merged into each one that is, if this one is not too large. -/
theorem exists_merge {other : TypeSystem} (hu : u.size ≤ capacity) (hts : ts.WellFormed)
    (hwithin : ts.Within u) (hother : other.WellFormed) (hwithin' : other.Within u) :
    ∃ n ts', Growth.merge other ts = (.ok n, ts') ∧ ts'.WellFormed ∧ ts'.Within u := by
  have hids : (u.entries.map Prod.fst).length ≤ capacity := by rwa [List.length_map]
  obtain ⟨n, ts', hmerge⟩ := exists_mergeEntries hids hwithin'.mem_ids 0 hts.nodup hwithin.mem_ids
  refine ⟨n, ts', hmerge, hts.merge hother hmerge, fun x hx => ?_⟩
  obtain ⟨e, he, rfl⟩ := List.mem_map.1 (contains_iff.1 hx)
  obtain ⟨-, -, hmem, -, -⟩ := mergeEntries_eq_ok hmerge
  rcases hmem e he with hold | hnew
  · exact contains_iff.2 (hwithin.mem_ids e hold)
  · exact contains_iff.2 (hwithin'.mem_ids e hnew)

end TypeSystem

/-! ## Symbolic systems with the same names and types -/

namespace SymbolicSystem

variable {sys sys' : SymbolicSystem}

/-- Systems that are **alike**: the same library with the same ids of names, and with types under the
same ids. -/
structure Alike (sys sys' : SymbolicSystem) : Prop where
  library : sys.library = sys'.library
  names : ∀ name, sys.names.lookup name = sys'.names.lookup name
  types : ∀ sid, sys.types.contains sid = true ↔ sys'.types.contains sid = true

theorem Alike.refl (sys : SymbolicSystem) : sys.Alike sys := ⟨rfl, fun _ => rfl, fun _ => .rfl⟩

theorem Alike.symm (h : sys.Alike sys') : sys'.Alike sys :=
  ⟨h.library.symm, fun name => (h.names name).symm, fun sid => (h.types sid).symm⟩

/-- Alike systems resolve names alike. -/
theorem Alike.resolve_eq (h : sys.Alike sys') (name : String) : sys.resolve name = sys'.resolve name := by
  simp only [resolve, resolveLocal, h.library, h.names]

/-- A system with no names and no types beyond those of another one. -/
structure Within (sys sys' : SymbolicSystem) : Prop where
  library : sys.library = sys'.library
  names : ∀ name sid, sys.names.lookup name = some sid → sys'.names.lookup name = some sid
  types : sys.types.Within sys'.types

/-- Systems with nothing beyond each other are alike. -/
theorem Within.alike (h : sys.Within sys') (h' : sys'.Within sys) : sys.Alike sys' :=
  ⟨h.library, fun name => Option.ext fun sid => ⟨h.names name sid, h'.names name sid⟩,
    fun sid => ⟨h.types sid, h'.types sid⟩⟩

/-- A **sound** system: its types are well formed, and each of its names has the id of one of them. -/
structure Sound (sys : SymbolicSystem) : Prop where
  types : sys.types.WellFormed
  names : ∀ name sid, sys.names.lookup name = some sid → sys.types.contains sid = true

/-- What a sound system resolves is the id of one of its types. -/
theorem Sound.contains_of_resolve (h : sys.Sound) {name : String} {sid : SemId}
    (hsid : sys.resolve name = .ok sid) : sys.types.contains sid = true := by
  have hlocal : ∀ name, sys.resolveLocal name = .ok sid → sys.types.contains sid = true := by
    intro name hname
    unfold resolveLocal at hname
    split at hname
    · rename_i hlookup
      obtain rfl := Except.ok.inj hname
      exact h.names name _ hlookup
    · cases hname
  unfold resolve at hsid
  split at hsid
  · split at hsid
    · exact hlocal _ hsid
    · cases hsid
  · exact hlocal _ hsid

end SymbolicSystem

/-- Among different keys, an entry that is one of the first comes behind still fewer. -/
theorem exists_split_of_mem_take {κ α : Type} {entries : List (κ × α)}
    (hnodup : (entries.map Prod.fst).Nodup) {k : Nat} {e : κ × α} (he : e ∈ entries.take k) :
    ∃ j < k, e.1 ∉ (entries.take j).map Prod.fst ∧ ∃ after, entries = entries.take j ++ e :: after := by
  obtain ⟨before, after, hsplit⟩ := List.append_of_mem he
  have hentries : entries = before ++ e :: (after ++ entries.drop k) := by
    rw [← List.cons_append, ← List.append_assoc, ← hsplit]
    exact (List.take_append_drop k entries).symm
  have hbefore : entries.take before.length = before := by rw [hentries, List.take_left]
  refine ⟨before.length, ?_, ?_, _, hbefore.symm ▸ hentries⟩
  · have hlength := congrArg List.length hsplit
    rw [List.length_append, List.length_cons] at hlength
    have hle := List.length_take_le k entries
    omega
  · rw [hbefore]
    intro hmem
    rw [hentries, List.map_append, List.map_cons] at hnodup
    exact List.disjoint_of_nodup_append hnodup hmem (List.mem_cons_self ..)

/-- The **stage** at which so many names of a workbench have ids. -/
def Workbench.stage (w : Workbench) (k : Nat) : Workbench := ⟨w.types, w.names.take k⟩

/-- A stage grows to its workbench. -/
theorem Workbench.stage_grows (w : Workbench) (k : Nat) : (w.stage k).Grows w :=
  ⟨.refl _, List.take_prefix k w.names⟩

namespace TypeLibrary

variable {lib lib' : TypeLibrary} {used used' : List (String × SymbolicSystem)} {T x : Workbench}
  {chain : List String}

/-- Provided libraries that are **alike**, one by one. -/
def AlikeUsed (used used' : List (String × SymbolicSystem)) : Prop :=
  List.Forall₂ (fun e e' => e.1 = e'.1 ∧ e.2.Alike e'.2) used used'

theorem AlikeUsed.refl (used : List (String × SymbolicSystem)) : AlikeUsed used used :=
  List.forall₂_same.2 fun e _ => ⟨rfl, .refl e.2⟩

theorem AlikeUsed.symm (h : AlikeUsed used used') : AlikeUsed used' used :=
  h.flip.imp fun _ _ h => ⟨h.1.symm, h.2.symm⟩

theorem AlikeUsed.exists_lookup (h : AlikeUsed used used') {name : String} {sys : SymbolicSystem}
    (hsys : used.lookup name = some sys) : ∃ sys', used'.lookup name = some sys' ∧ sys.Alike sys' := by
  induction h with
  | nil => cases hsys
  | @cons e e' _ _ he _ ih =>
    obtain ⟨dep, s⟩ := e
    obtain ⟨dep', s'⟩ := e'
    obtain ⟨rfl, halike⟩ := he
    rw [List.lookup_cons] at hsys ⊢
    cases hname : name == dep with
    | true =>
      rw [hname] at hsys
      obtain rfl := Option.some.inj hsys
      exact ⟨s', rfl, halike⟩
    | false =>
      rw [hname] at hsys
      exact ih hsys

theorem AlikeUsed.exists_mem (h : AlikeUsed used used') {e' : String × SymbolicSystem}
    (he' : e' ∈ used') : ∃ e ∈ used, e.2.Alike e'.2 := by
  induction h with
  | nil => cases he'
  | cons he _ ih =>
    rcases List.mem_cons.1 he' with rfl | he'
    · exact ⟨_, List.mem_cons_self .., he.2⟩
    · obtain ⟨e, he, halike⟩ := ih he'
      exact ⟨e, List.mem_cons_of_mem _ he, halike⟩

/-! ## Workbenches along a course -/

/-- A workbench **along** the one at the end of a course: it holds only types that are held there, and
each of its names has the id that it has there. The names on the chain have none yet. -/
structure Along (T : Workbench) (used : List (String × SymbolicSystem)) (chain : List String)
    (x : Workbench) : Prop where
  types : x.types.WellFormed
  within : x.types.Within T.types
  names : ∀ name sid, x.names.lookup name = some sid →
    T.names.lookup name = some sid ∧ x.types.contains sid = true
  used : ∀ e ∈ used, e.2.types.Within x.types
  pending : ∀ name ∈ chain, x.names.lookup name = none

/-- What stands at the end of the course is inserted along it. -/
theorem Along.exists_insert (h : Along T used chain x) (hT : T.types.size ≤ capacity) {d : Draft}
    {sid : SemId} (hstands : T.types.Stands d sid)
    (hrefs : ∀ ref ∈ d.references, x.types.contains ref = true) :
    ∃ x', Compiling.insert d x = (.ok sid, x') ∧ x.Grows x' ∧ Along T used chain x' ∧
      x'.types.contains sid = true := by
  obtain ⟨ts', hinsert, hwithin⟩ := hstands.exists_insert hT h.types h.within hrefs
  have hins : Growth.Insertions x.types ts' := .step hinsert (.refl _)
  have hkeep := hins.isExtension.within
  refine ⟨{ x with types := ts' }, ?_, ⟨hins, List.prefix_rfl⟩, ⟨hins.wellFormed h.types, hwithin,
    fun name sid hsid => ?_, fun e he => (h.used e he).trans hkeep, h.pending⟩,
    contains_of_insert hinsert⟩
  · rw [Compiling.insert, Compiling.grow, Growth.insert_eq_ok.2 hinsert]
  · exact ⟨(h.names name sid hsid).1, hkeep sid (h.names name sid hsid).2⟩

/-- A name gets the id that it has at the end of the course. -/
theorem Along.name {name : String} {sid : SemId} (h : Along T used (name :: chain) x)
    (hnew : name ∉ chain) (hsid : T.names.lookup name = some sid)
    (hheld : x.types.contains sid = true) :
    Along T used chain { x with names := x.names ++ [(name, sid)] } := by
  have hfree := h.pending name (List.mem_cons_self ..)
  refine ⟨h.types, h.within, fun n s hn => ?_, h.used, fun n hn => ?_⟩
  · rw [List.lookup_append, Option.or_eq_some_iff] at hn
    rcases hn with hold | ⟨-, hlast⟩
    · exact h.names n s hold
    · obtain ⟨rfl, rfl⟩ : n = name ∧ s = sid := by simpa using mem_of_lookup hlast
      exact ⟨hsid, hheld⟩
  · have hne : n ≠ name := fun heq => hnew (heq ▸ hn)
    rw [List.lookup_append, h.pending n (List.mem_cons_of_mem _ hn), List.lookup_cons,
      beq_false_of_ne hne]
    rfl

/-! ## Retracing references -/

/-- A computation that **retraces** an id: along the course it gives this id, which is held then. -/
def Retraces (T : Workbench) (used : List (String × SymbolicSystem)) (chain : List String)
    (m : Compiling SemId) (sid : SemId) : Prop :=
  ∀ x, Along T used chain x → ∃ x', m x = (.ok sid, x') ∧ x.Grows x' ∧ Along T used chain x' ∧
    x'.types.contains sid = true

/-- A declaration that was compiled before the end of the course is retraced, if the references are
that were answered then. -/
theorem retraces_compileDeclaration {t : Workbench} {ref : Value → String → Compiling SemId}
    {decl : Value} {name : String} {sid : SemId} (hT : T.types.size ≤ capacity) (ht : t.Grows T)
    (hrun : compileDeclaration (recollect used) decl name t = (.ok sid, t))
    (href : ∀ ty sid, Answered used t ty sid → ∀ place,
      Retraces T used' chain (ref (.text ty) place) sid) :
    Retraces T used' chain (compileDeclaration ref decl name) sid := by
  have hP : Stable fun _ => True := fun _ _ _ _ => trivial
  have hfollows : Compiling.Follows (fun _ => True) t (Along T used' chain)
      (fun x sid => x.types.contains sid = true) [] (compileDeclaration (recollect used) decl name)
      (compileDeclaration ref decl name) fun sid => [sid] := by
    refine (scripted_compileDeclaration [] decl name).follows
      (fun _ _ _ hgrows hsid => hgrows.types.isExtension.contains hsid) ?_ ?_
    · intro d w hw a w' hinsert
      obtain ⟨hgrows, -, hstands⟩ := Compiling.achieves_insert hP d w hw a w' hinsert
      refine ⟨hgrows, trivial, fun hbelow x hx hrefs => ?_⟩
      obtain ⟨x', hx', hgrows', hx'', hheld⟩ :=
        hx.exists_insert hT (hstands.mono (hbelow.trans ht).types.isExtension) hrefs
      exact ⟨x', hx', hgrows', hx'', List.forall_mem_singleton.2 hheld⟩
    · intro v _ place w hw a w' hrecollect
      obtain ⟨hgrows, -, ty, rfl, hanswered⟩ := achieves_recollect hP v place w hw a w' hrecollect
      refine ⟨hgrows, trivial, fun hbelow x hx _ => ?_⟩
      obtain ⟨x', hx', hgrows', hx'', hheld⟩ :=
        href ty a (lasting_answered ty w' t a hbelow hanswered) place x hx
      exact ⟨x', hx', hgrows', hx'', List.forall_mem_singleton.2 hheld⟩
  intro x hx
  obtain ⟨-, -, hagain⟩ := hfollows t trivial sid t hrun
  obtain ⟨x', hx', hgrows, hx'', hheld⟩ := hagain (.refl t) x hx nofun
  exact ⟨x', hx', hgrows, hx'', hheld sid (List.mem_singleton.2 rfl)⟩

/-- A name that has an id at a stage got it at an earlier one. -/
theorem Course.exists_earlier (h : lib.Course used T) {k : Nat} {name : String} {sid : SemId}
    (hknown : (T.stage k).names.lookup name = some sid) :
    ∃ j < k, name ∉ (T.stage j).names.map Prod.fst ∧
      ∃ t : Workbench, t.Grows T ∧ t.Grows (T.stage j) ∧ lib.Settled used t name sid := by
  obtain ⟨j, hj, hnew, after, hsplit⟩ := exists_split_of_mem_take h.nodup (mem_of_lookup hknown)
  obtain ⟨t, ht, hgrows, hsettled⟩ := h.settled _ _ _ hsplit
  exact ⟨j, hj, hnew, t, hgrows, ⟨hgrows.types, ht ▸ List.prefix_rfl⟩, hsettled⟩

/-- Whatever is answered at a stage of the course is retraced, if no name on the chain has an id there:
the declarations on the way belong to earlier stages. -/
theorem retraces_compileReference (hcourse : lib.Course used T) (hT : T.types.size ≤ capacity)
    (hused : AlikeUsed used used') (hsound : ∀ e ∈ used', e.2.Sound)
    (hdecls : ∀ name decl, Value.lookup? (.text name) lib.declarations = some decl →
      Value.lookup? (.text name) lib'.declarations = some decl)
    (k : Nat) (chain : List String) (hchain : ∀ c ∈ chain, c ∉ (T.stage k).names.map Prod.fst)
    {fuel : Nat} (hfuel : k < fuel) {ty : String} {sid : SemId}
    (hanswered : Answered used (T.stage k) ty sid) (place : String) :
    Retraces T used' chain (compileReference lib' used' fuel chain (.text ty) place) sid := by
  induction k using Nat.strongRecOn generalizing chain fuel ty sid place with
  | ind k ih =>
  obtain ⟨fuel, rfl⟩ := Nat.exists_eq_add_one_of_ne_zero (Nat.ne_of_gt (Nat.zero_lt_of_lt hfuel))
  intro x hx
  cases hanswered with
  | builtin hbuiltin hsid hin =>
    obtain ⟨d, hderive, hid, hvalid, hrefs⟩ := Codec.exists_define_of_builtin hbuiltin
    rw [compileReference_builtin hbuiltin, hderive]
    have hnone : ∀ (ts : TypeSystem), ∀ ref ∈ d.toDraft.references, ts.contains ref = true := by
      rw [TypeDef.references_toDraft, hrefs]
      nofun
    exact hx.exists_insert hT ⟨hvalid, hid.symm.trans hsid, hnone _, hin⟩ (hnone _)
  | qualified hordinary hcut hlookup hresolve =>
    obtain ⟨sys', hlookup', halike⟩ := hused.exists_lookup hlookup
    rw [halike.resolve_eq] at hresolve
    have hmem := mem_of_lookup hlookup'
    rw [compileReference_qualified hordinary hcut, hlookup']
    refine ⟨x, congrArg (·, x) hresolve, .refl x, hx, ?_⟩
    exact hx.used _ hmem sid ((hsound _ hmem).contains_of_resolve hresolve)
  | compiled hordinary hplain hknown =>
    have hfinal : T.names.lookup ty = some sid :=
      (T.stage_grows k).lookup hknown
    rw [compileReference_declared hordinary hplain]
    cases hhere : x.names.lookup ty with
    | some sid' =>
      obtain ⟨hthere, hheld⟩ := hx.names ty sid' hhere
      obtain rfl := Option.some.inj (hthere.symm.trans hfinal)
      exact ⟨x, rfl, .refl x, hx, hheld⟩
    | none =>
    obtain ⟨j, hj, hnew, t, hgrows, hstage, hsettled⟩ := hcourse.exists_earlier hknown
    obtain ⟨decl, hdecl, hrun⟩ := hsettled.declared
    have hty : ty ∉ chain := fun hmem => hchain ty hmem (isSome_lookup.1 (by rw [hknown]; rfl))
    have hchain' : ∀ c ∈ ty :: chain, c ∉ (T.stage j).names.map Prod.fst := by
      refine List.forall_mem_cons.2 ⟨hnew, fun c hc hmem => hchain c hc ?_⟩
      exact ((List.take_prefix_take_left (Nat.le_of_lt hj)).map Prod.fst).subset hmem
    have hretraces : Retraces T used' (ty :: chain) (compileDeclaration
        (compileReference lib' used' fuel (ty :: chain)) decl ty) sid :=
      retraces_compileDeclaration hT hgrows hrun fun ty' sid' hanswered place' =>
        ih j hj (ty :: chain) hchain' (by omega) (lasting_answered ty' _ _ sid' hstage hanswered)
          place'
    rw [hdecls ty decl hdecl]
    dsimp only
    rw [if_neg (by rwa [List.contains_iff_mem])]
    obtain ⟨x', hx', hgrows', halong, hheld⟩ :=
      hretraces x ⟨hx.types, hx.within, hx.names, hx.used, List.forall_mem_cons.2 ⟨hhere, hx.pending⟩⟩
    refine ⟨{ x' with names := x'.names ++ [(ty, sid)] }, ?_,
      hgrows'.trans ⟨.refl _, List.prefix_append ..⟩, halong.name hty hfinal hheld, hheld⟩
    rw [bind_apply, Compiling.placed, hx']
    rfl

/-! ## Retracing a library -/

/-- What is merged is held. -/
theorem within_of_mergeUsed {w w' : Workbench} (h : mergeUsed used w = (.ok (), w')) :
    w.types.Within w'.types ∧ ∀ e ∈ used, e.2.types.Within w'.types := by
  induction used generalizing w with
  | nil =>
    cases h
    exact ⟨fun _ => id, nofun⟩
  | cons e used ih =>
    rw [mergeUsed, bind_apply] at h
    unfold Compiling.grow at h
    rcases hmerge : Growth.merge e.2.types w.types with ⟨_ | n, ts⟩
    · rw [hmerge] at h
      cases h
    · rw [hmerge] at h
      obtain ⟨hextends, hmerged, -⟩ := mergeEntries_eq_ok hmerge
      obtain ⟨hkeep, hrest⟩ := ih (w := { w with types := ts }) h
      refine ⟨hextends.within.trans hkeep, List.forall_mem_cons.2 ⟨fun sid hsid => ?_, hrest⟩⟩
      obtain ⟨x, hx, rfl⟩ := List.mem_map.1 (contains_iff.1 hsid)
      exact hkeep x.1 (hmerged x hx)

/-- Libraries whose types are within a system that is not too large can be merged. -/
theorem exists_mergeUsed {u : TypeSystem} (hu : u.size ≤ capacity)
    (hused : ∀ e ∈ used, e.2.types.WellFormed ∧ e.2.types.Within u) {w : Workbench}
    (hw : w.types.WellFormed) (hwithin : w.types.Within u) :
    ∃ w', mergeUsed used w = (.ok (), w') ∧ w'.types.WellFormed ∧ w'.types.Within u := by
  induction used generalizing w with
  | nil => exact ⟨w, rfl, hw, hwithin⟩
  | cons e used ih =>
    rw [List.forall_mem_cons] at hused
    obtain ⟨n, ts, hmerge, hts, hin⟩ := exists_merge hu hw hwithin hused.1.1 hused.1.2
    obtain ⟨w', hrest, hw', hin'⟩ := ih hused.2 (w := { w with types := ts }) hts hin
    refine ⟨w', ?_, hw', hin'⟩
    rw [mergeUsed, bind_apply, Compiling.grow, hmerge]
    exact hrest

/-- A loop over references that are retraced succeeds. -/
theorem exists_forM {α : Type} {f : α → Compiling Unit} {g : α → Compiling SemId} {xs : List α}
    (hf : ∀ a, f a = do let _ ← g a) (h : ∀ a ∈ xs, ∃ sid, Retraces T used chain (g a) sid)
    (hx : Along T used chain x) :
    ∃ x', xs.forM f x = (.ok (), x') ∧ Along T used chain x' := by
  induction xs generalizing x with
  | nil => exact ⟨x, rfl, hx⟩
  | cons a xs ih =>
    rw [List.forall_mem_cons] at h
    obtain ⟨sid, hretraces⟩ := h.1
    obtain ⟨x₁, hrun, -, hx₁, -⟩ := hretraces x hx
    obtain ⟨x₂, hrest, hx₂⟩ := ih h.2 hx₁
    refine ⟨x₂, ?_, hx₂⟩
    show (f a >>= fun _ => xs.forM f) x = _
    rw [bind_apply, hf, bind_apply, hrun]
    exact hrest

/-- A library that is **rearranged**: it has the declarations of the other one in some order. -/
structure Rearranged (lib lib' : TypeLibrary) : Prop where
  name : lib.name = lib'.name
  uses : lib.uses = lib'.uses
  declarations : lib.declarations.Perm lib'.declarations

theorem Rearranged.refl (lib : TypeLibrary) : lib.Rearranged lib := ⟨rfl, rfl, .refl _⟩

theorem Rearranged.symm (h : lib.Rearranged lib') : lib'.Rearranged lib :=
  ⟨h.name.symm, h.uses.symm, h.declarations.symm⟩

/-- A name is declared alike in a rearranged library. -/
theorem Rearranged.lookup? (h : lib.Rearranged lib') (hkeys : (lib.declarations.map Prod.fst).Nodup)
    {name : String} {decl : Value} (hdecl : Value.lookup? (.text name) lib.declarations = some decl) :
    Value.lookup? (.text name) lib'.declarations = some decl := by
  have hkeys' := (h.declarations.map Prod.fst).nodup_iff.1 hkeys
  rw [Value.lookup?_text_eq_some_iff hkeys] at hdecl
  exact (Value.lookup?_text_eq_some_iff hkeys').2 (h.declarations.mem_iff.1 hdecl)

/-- A course has no more names than there are declarations. -/
theorem Course.length_le (h : lib.Course used T) : T.names.length ≤ lib.declarations.length := by
  have hchain : lib.OnChain (T.names.map Prod.fst) := by
    refine ⟨h.nodup, fun name hname => ?_⟩
    obtain ⟨e, he, rfl⟩ := List.mem_map.1 hname
    obtain ⟨decl, hdecl, -⟩ := (h.settled_mem he).declared
    rw [hdecl]
    rfl
  simpa using hchain.length_le

/-- Where a library compiles, each rearranged one does, with libraries that are alike, and has no names
and no types beyond those of the first one. -/
theorem exists_compile_within (h : lib.Rearranged lib')
    (hkeys : (lib.declarations.map Prod.fst).Nodup) (hused : AlikeUsed used used')
    (hsound : ∀ e ∈ used, e.2.Sound) (hsound' : ∀ e ∈ used', e.2.Sound) {written : List Event}
    {sys : SymbolicSystem} (hcompile : (lib.compile used written).1 = .ok sys) :
    ∃ sys' : SymbolicSystem, (∀ written, (lib'.compile used' written).1 = .ok sys') ∧ sys'.Sound ∧
      sys'.Within sys := by
  have hfinished := finished_of_compile hcompile
  have htypes := (compiled_of_compile hcompile).types _ hereditary_wellFormed
    fun e he => (hsound e he).types
  obtain ⟨hprovided, bench, done, hmerge, hall, rfl⟩ := compile_eq_ok.1 hcompile
  obtain ⟨hgrows, -, -⟩ := achieves_compileAllDeclarations lib used bench (underway_of_mergeUsed hmerge)
    () done hall
  have hmerged : ∀ e ∈ used', e.2.types.WellFormed ∧ e.2.types.Within done.types := by
    intro e' he'
    obtain ⟨e, he, halike⟩ := hused.exists_mem he'
    refine ⟨(hsound' e' he').types, fun sid hsid => hgrows.types.isExtension.within sid ?_⟩
    exact (within_of_mergeUsed hmerge).2 e he sid ((halike.types sid).2 hsid)
  have hempty : TypeSystem.empty.Within done.types := fun _ => nofun
  obtain ⟨bench', hmerge', hbench, hwithin⟩ := exists_mergeUsed htypes.small hmerged
    (w := ⟨.empty, []⟩) wellFormed_empty hempty
  have hnames := names_eq_nil_of_mergeUsed hmerge'
  have hstart : Along done used' [] bench' :=
    ⟨hbench, hwithin, by simp [hnames], (within_of_mergeUsed hmerge').2, nofun⟩
  have hfuel : done.names.length < lib'.declarations.length + 1 := by
    rw [← h.declarations.length_eq]
    exact Nat.lt_succ_of_le hfinished.course.length_le
  have hlast : done.stage done.names.length = done := by rw [Workbench.stage, List.take_length]
  have hrefs : ∀ e ∈ lib'.declarations, ∃ sid, Retraces done used' []
      (compileReference lib' used' (lib'.declarations.length + 1) [] e.1 e.1.display) sid := by
    intro e he
    -- every declared name is answered at the last stage of the course
    obtain ⟨ty, sid, hty, hanswered⟩ := hfinished.complete e (h.declarations.mem_iff.2 he)
    rw [hty]
    exact ⟨sid, retraces_compileReference hfinished.course htypes.small hused hsound'
      (fun _ _ => h.lookup? hkeys) _ [] nofun hfuel (hlast.symm ▸ hanswered) _⟩
  obtain ⟨done', hall', halong⟩ := exists_forM (fun _ => rfl) hrefs hstart
  refine ⟨⟨lib'.name, done'.types, done'.names⟩, fun written => compile_eq_ok.2 ⟨?_, bench', done',
    hmerge', hall', rfl⟩, ⟨halong.types, fun name sid hsid => (halong.names name sid hsid).2⟩,
    h.name.symm, fun name sid hsid => (halong.names name sid hsid).1, halong.within⟩
  intro name hname
  obtain ⟨sys, hsys⟩ := Option.isSome_iff_exists.1 (hprovided name (h.uses ▸ hname))
  obtain ⟨sys', hsys', -⟩ := hused.exists_lookup hsys
  rw [hsys']
  rfl

/-- What compiles with sound libraries is sound. -/
theorem sound_of_compile (hkeys : (lib.declarations.map Prod.fst).Nodup)
    (hsound : ∀ e ∈ used, e.2.Sound) {written : List Event} {sys : SymbolicSystem}
    (hcompile : (lib.compile used written).1 = .ok sys) : sys.Sound := by
  obtain ⟨sys', hagain, hsys', -⟩ := exists_compile_within (.refl lib) hkeys (.refl used) hsound hsound
    hcompile
  rwa [Except.ok.inj (hcompile.symm.trans (hagain written))]

/-- Where a library compiles, each rearranged one does, with libraries that are alike, and the results
are alike. -/
theorem exists_compile_alike (h : lib.Rearranged lib')
    (hkeys : (lib.declarations.map Prod.fst).Nodup) (hused : AlikeUsed used used')
    (hsound : ∀ e ∈ used, e.2.Sound) (hsound' : ∀ e ∈ used', e.2.Sound) {written : List Event}
    {sys : SymbolicSystem} (hcompile : (lib.compile used written).1 = .ok sys) :
    ∃ sys' : SymbolicSystem, (∀ written, (lib'.compile used' written).1 = .ok sys') ∧ sys'.Sound ∧
      sys.Alike sys' := by
  obtain ⟨sys', hrun, hsys', hwithin⟩ := exists_compile_within h hkeys hused hsound hsound' hcompile
  -- the first compilation retraces the second one as well
  have hkeys' := (h.declarations.map Prod.fst).nodup_iff.1 hkeys
  obtain ⟨sys'', hback, -, hwithin'⟩ := exists_compile_within h.symm hkeys' hused.symm hsound' hsound
    (hrun [])
  obtain rfl := Except.ok.inj (hcompile.symm.trans (hback written))
  exact ⟨sys', hrun, hsys', hwithin'.alike hwithin⟩

end TypeLibrary

end StrictContract
