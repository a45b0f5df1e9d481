import StrictContract.Proofs.TypeLibrary.Document
import StrictContract.Proofs.TypeLibrary.Libraries
import StrictContract.Proofs.TypeLibrary.References

/-! # Courses — in which order names are compiled

A name gets its id when its declaration is compiled, and at this moment every reference of the
declaration is answered: compiled once more, the declaration would only **recollect** what is there. So
the order in which the names of a library got their ids is a **course**: each declaration is settled
by the names before it. This is all that is needed of the run that went before. -/

namespace StrictContract

open TypeSystem

/-! ## What stands already -/

/-- What stands is inserted without a change. -/
theorem TypeSystem.Stands.insert_eq {ts : TypeSystem} {d : Draft} {sid : SemId}
    (h : ts.Stands d sid) : ts.insert d = .ok (sid, ts) := by
  have hroom : ts.contains sid = false → ts.size < capacity := by simp [h.held]
  obtain ⟨ts', hinsert⟩ := exists_insert h.valid h.closed h.named hroom
  obtain ⟨-, -, -, ⟨-, rfl⟩ | ⟨_, hnew, -⟩⟩ := insert_eq_ok hinsert
  · exact hinsert
  · simp [h.held] at hnew

theorem Compiling.insert_of_stands {w : Workbench} {d : Draft} {sid : SemId}
    (h : w.types.Stands d sid) : Compiling.insert d w = (.ok sid, w) := by
  rw [Compiling.insert, Compiling.grow, Growth.insert_eq_ok.2 h.insert_eq]

namespace TypeLibrary

variable {lib : TypeLibrary} {used : List (String × SymbolicSystem)} {w w' : Workbench}

/-! ## Recalling -/

/-- **Recalls** a reference: it is compiled where nothing is declared. -/
def recollect (used : List (String × SymbolicSystem)) : Value → String → Compiling SemId :=
  compileReference ⟨"", [], [], ""⟩ used 1 []

/-- What is answered is recollected without a change. -/
theorem recollect_of_answered {ty : String} {sid : SemId} (h : Answered used w ty sid)
    (place : String) : recollect used (.text ty) place w = (.ok sid, w) := by
  cases h with
  | builtin hbuiltin hsid hin =>
    obtain ⟨d, hderive, hid, hvalid, hrefs⟩ := Codec.exists_define_of_builtin hbuiltin
    rw [recollect, compileReference_builtin hbuiltin, hderive]
    refine Compiling.insert_of_stands ⟨hvalid, hid.symm.trans hsid, ?_, hin⟩
    rw [TypeDef.references_toDraft, hrefs]
    nofun
  | qualified hordinary hcut hused hresolve =>
    rw [recollect, compileReference_qualified hordinary hcut, hused]
    exact congrArg (·, w) hresolve
  | compiled hordinary hplain hknown =>
    rw [recollect, compileReference_declared hordinary hplain, hknown]

/-- What is recollected is answered. -/
theorem achieves_recollect {P : Workbench → Prop} (hP : Stable P) (v : Value) (place : String) :
    Compiling.Achieves P (recollect used v place)
      fun w sid => ∃ ty, v = .text ty ∧ Answered used w ty sid :=
  achieves_compileReference_of (P := fun _ => P) (fun _ => hP) (fun h _ => h)
    (fun _ _ hdecl => by cases hdecl) 1 [] v place

/-! ## Courses -/

/-- A name is **settled** with an id in a workbench where its declaration gives this id although all
references in it are only recollected. -/
structure Settled (lib : TypeLibrary) (used : List (String × SymbolicSystem)) (w : Workbench)
    (name : String) (sid : SemId) : Prop extends IsLocal name where
  declared : ∃ decl, Value.lookup? (.text name) lib.declarations = some decl ∧
    compileDeclaration (recollect used) decl name w = (.ok sid, w)

/-- Every reference of a settled name is answered. -/
theorem Settled.answered {name : String} {sid : SemId} (h : lib.Settled used w name sid)
    {decl : Value} (hdecl : Value.lookup? (.text name) lib.declarations = some decl) :
    ∀ v ∈ references decl, ∃ ty sid, v = .text ty ∧ Answered used w ty sid := by
  obtain ⟨decl', hdecl', hrun⟩ := h.declared
  obtain rfl := Option.some.inj (hdecl.symm.trans hdecl')
  have hachieves : Compiling.Achieves (fun _ => True) (compileDeclaration (recollect used) decl name)
      fun w _ => ∀ v ∈ references decl, ∃ ty sid, v = .text ty ∧ Answered used w ty sid := by
    refine (scripted_compileDeclaration [] decl name).achieves (fun _ _ _ _ => trivial) ?_ ?_
    · rintro w w' v hgrows ⟨ty, sid, hty, h⟩
      exact ⟨ty, sid, hty, lasting_answered ty w w' sid hgrows h⟩
    · intro v _ place
      exact (achieves_recollect (fun _ _ _ _ => trivial) v place).imp
        fun w sid _ ⟨ty, hty, h⟩ => ⟨ty, sid, hty, h⟩
  exact (hachieves w trivial sid w hrun).2.2

/-- The **course** of a compilation: each name was settled by those before it, and none came twice. -/
structure Course (lib : TypeLibrary) (used : List (String × SymbolicSystem)) (w : Workbench) :
    Prop where
  settled : ∀ before e after, w.names = before ++ e :: after →
    ∃ t : Workbench, t.names = before ∧ t.Grows w ∧ lib.Settled used t e.1 e.2
  nodup : (w.names.map Prod.fst).Nodup

/-- Insertions keep the course. -/
theorem stable_course : Stable (lib.Course used) := by
  refine fun w ts' h hins => ⟨fun before e after hnames => ?_, h.nodup⟩
  obtain ⟨t, ht, hgrows, hsettled⟩ := h.settled before e after hnames
  exact ⟨t, ht, hgrows.trans ⟨hins, List.prefix_refl _⟩, hsettled⟩

/-- A settled name goes on with the course. -/
theorem Course.name (h : lib.Course used w) {name : String} {sid : SemId}
    (hnew : w.names.lookup name = none) (hsettled : lib.Settled used w name sid) :
    lib.Course used { w with names := w.names ++ [(name, sid)] } := by
  have hgrows : w.Grows { w with names := w.names ++ [(name, sid)] } :=
    ⟨.refl _, List.prefix_append ..⟩
  constructor
  · intro before e after hnames
    rcases List.eq_nil_or_concat after with rfl | ⟨rest, last, rfl⟩
    · obtain ⟨rfl, hlast⟩ := List.append_inj' hnames rfl
      cases hlast
      exact ⟨w, rfl, hgrows, hsettled⟩
    · have hnames' : w.names ++ [(name, sid)] = (before ++ e :: rest) ++ [last] := by
        simpa using hnames
      obtain ⟨hold, -⟩ := List.append_inj' hnames' rfl
      obtain ⟨t, ht, hbelow, hsettled⟩ := h.settled before e rest hold
      exact ⟨t, ht, hbelow.trans hgrows, hsettled⟩
  · rw [List.map_append, List.map_singleton]
    refine nodup_concat h.nodup fun hmem => ?_
    rw [← isSome_lookup, hnew] at hmem
    cases hmem

/-- A declaration that was compiled gives the same id in every workbench above, although all references
in it are only recollected there. -/
theorem compileDeclaration_recollect {P : Workbench → Prop} {ref : Value → String → Compiling SemId}
    (hP : Stable P) (href : ∀ v place, Compiling.Achieves P (ref v place)
      fun w sid => ∃ ty, v = .text ty ∧ Answered used w ty sid)
    {decl : Value} {name : String} {sid : SemId} {T : Workbench} (hw : P w)
    (hrun : compileDeclaration ref decl name w = (.ok sid, w')) (hT : w'.Grows T) :
    w.Grows w' ∧ P w' ∧ compileDeclaration (recollect used) decl name T = (.ok sid, T) := by
  have hfollows : Compiling.Follows P T (· = T) (fun _ _ => True) []
      (compileDeclaration ref decl name) (compileDeclaration (recollect used) decl name)
      fun sid => [sid] := by
    refine (scripted_compileDeclaration [] decl name).follows (fun _ _ _ _ _ => trivial) ?_ ?_
    · intro d w hw sid w₁ hrun
      obtain ⟨hgrows, hw₁, hstands⟩ := Compiling.achieves_insert hP d w hw sid w₁ hrun
      refine ⟨hgrows, hw₁, fun hT x hx _ => ?_⟩
      subst hx
      have hstands' := hstands.mono hT.types.isExtension
      exact ⟨x, Compiling.insert_of_stands hstands', .refl x, rfl, fun _ _ => trivial⟩
    · intro v _ place w hw sid w₁ hrun
      obtain ⟨hgrows, hw₁, ty, rfl, hanswered⟩ := href v place w hw sid w₁ hrun
      refine ⟨hgrows, hw₁, fun hT x hx _ => ?_⟩
      subst hx
      have hanswered' := lasting_answered ty w₁ x sid hT hanswered
      exact ⟨x, recollect_of_answered hanswered' place, .refl x, rfl, fun _ _ => trivial⟩
  obtain ⟨hgrows, hw', hagain⟩ := hfollows w hw sid w' hrun
  obtain ⟨x, hx, -, rfl, -⟩ := hagain hT T rfl nofun
  exact ⟨hgrows, hw', hx⟩

/-- A declaration that is compiled is settled where it ends. -/
theorem settled_of_compileDeclaration {P : Workbench → Prop}
    {ref : Value → String → Compiling SemId} {name : String} {decl : Value} (hP : Stable P)
    (hlocal : IsLocal name) (hdecl : Value.lookup? (.text name) lib.declarations = some decl)
    (href : ∀ v place, Compiling.Achieves P (ref v place)
      fun w sid => ∃ ty, v = .text ty ∧ Answered used w ty sid) :
    Compiling.Achieves P (compileDeclaration ref decl name)
      fun w sid => lib.Settled used w name sid := by
  intro w hw sid w' hrun
  obtain ⟨hgrows, hw', hagain⟩ := compileDeclaration_recollect hP href hw hrun (.refl w')
  exact ⟨hgrows, hw', hlocal, decl, hdecl, hagain⟩

/-- What is settled stays settled. -/
theorem Settled.mono {name : String} {sid : SemId} (h : lib.Settled used w name sid)
    (hgrows : w.Grows w') : lib.Settled used w' name sid := by
  obtain ⟨decl, hdecl, hrun⟩ := h.declared
  have hP : Stable fun _ => True := fun _ _ _ _ => trivial
  obtain ⟨-, -, hagain⟩ := compileDeclaration_recollect hP (achieves_recollect hP) trivial hrun hgrows
  exact ⟨h.toIsLocal, decl, hdecl, hagain⟩

/-- A name with an id was settled, and still is. -/
theorem Course.settled_mem (h : lib.Course used w) {e : String × SemId} (he : e ∈ w.names) :
    lib.Settled used w e.1 e.2 := by
  obtain ⟨before, after, hsplit⟩ := List.append_of_mem he
  obtain ⟨t, -, hgrows, hsettled⟩ := h.settled before e after hsplit
  exact hsettled.mono hgrows

/-- A course on which the declarations of some names are being compiled: these have no id yet. -/
structure Underway (lib : TypeLibrary) (used : List (String × SymbolicSystem)) (chain : List String)
    (w : Workbench) : Prop where
  course : lib.Course used w
  pending : ∀ name ∈ chain, w.names.lookup name = none

theorem stable_underway {chain : List String} : Stable (lib.Underway used chain) :=
  fun w ts' h hins => ⟨stable_course w ts' h.course hins, h.pending⟩

/-- Compiling a reference goes on with the course and answers the name. -/
theorem achieves_underway (lib : TypeLibrary) (used : List (String × SymbolicSystem)) (fuel : Nat)
    (chain : List String) (v : Value) (place : String) :
    Compiling.Achieves (lib.Underway used chain) (compileReference lib used fuel chain v place)
      fun w sid => ∃ ty, v = .text ty ∧ Answered used w ty sid := by
  refine achieves_compileReference_of (P := lib.Underway used) (fun _ => stable_underway) ?_ ?_ fuel
    chain v place
  · exact fun h hfree => ⟨h.course, List.forall_mem_cons.2 ⟨hfree, h.pending⟩⟩
  · intro chain name decl ref hordinary hplain hdecl hnew href w hw sid w' hrun
    obtain ⟨hgrows, hunderway, hsettled⟩ :=
      settled_of_compileDeclaration stable_underway ⟨hordinary, hplain⟩ hdecl href w hw sid w' hrun
    have hfree := hunderway.pending name (List.mem_cons_self ..)
    refine ⟨hgrows, hunderway, hfree, hunderway.course.name hfree hsettled, fun n hn => ?_⟩
    have hne : n ≠ name := fun heq => hnew (heq ▸ hn)
    rw [List.lookup_append, hunderway.pending n (List.mem_cons_of_mem _ hn), List.lookup_cons,
      beq_false_of_ne hne]
    rfl

/-- A library is **finished** with a system where all declared names are answered, at the end of a
course of its compilation. -/
structure Finished (lib : TypeLibrary) (used : List (String × SymbolicSystem))
    (sys : SymbolicSystem) : Prop where
  library : sys.library = lib.name
  course : lib.Course used ⟨sys.types, sys.names⟩
  complete : ∀ e ∈ lib.declarations, ∃ ty sid, e.1 = .text ty ∧
    Answered used ⟨sys.types, sys.names⟩ ty sid

variable {sys : SymbolicSystem}

/-- A local name that is declared has an id in a finished library. -/
theorem Finished.exists_lookup (h : lib.Finished used sys) {name : String} (hlocal : IsLocal name)
    {decl : Value} (hdecl : Value.lookup? (.text name) lib.declarations = some decl) :
    ∃ sid, sys.names.lookup name = some sid := by
  obtain ⟨k, hk, hsame⟩ := Value.exists_mem_of_lookup? hdecl
  obtain rfl := Value.eq_of_same_text hsame
  obtain ⟨ty, sid, hty, hanswered⟩ := h.complete _ hk
  obtain rfl := Value.text.inj hty
  cases hanswered with
  | builtin hbuiltin _ _ => simp [hlocal.ordinary] at hbuiltin
  | qualified _ hcut _ _ => simp [hlocal.plain] at hcut
  | compiled _ _ hknown => exact ⟨sid, hknown⟩

/-- Merging the used libraries starts a course. -/
theorem underway_of_mergeUsed {bench : Workbench} (h : mergeUsed used ⟨.empty, []⟩ = (.ok (), bench)) :
    lib.Underway used [] bench := by
  have hnames := names_eq_nil_of_mergeUsed h
  refine ⟨⟨fun before e after hsplit => ?_, ?_⟩, nofun⟩
  · rw [hnames] at hsplit
    exact absurd hsplit (by simp)
  · rw [hnames]
    exact .nil

/-- Compiling the declarations goes on with the course and answers every declared name. -/
theorem achieves_compileAllDeclarations (lib : TypeLibrary) (used : List (String × SymbolicSystem)) :
    Compiling.Achieves (lib.Underway used []) (compileAllDeclarations lib used)
      fun w _ => ∀ e ∈ lib.declarations, ∃ ty sid, e.1 = .text ty ∧ Answered used w ty sid := by
  refine Compiling.achieves_forM ?_ fun e _ => ?_
  · rintro e w w' hgrows ⟨ty, sid, hty, h⟩
    exact ⟨ty, sid, hty, lasting_answered ty w w' sid hgrows h⟩
  · refine (achieves_underway lib used _ [] e.1 _).bind ?_ fun sid =>
      Compiling.achieves_pure fun w _ ⟨ty, hty, h⟩ => ⟨ty, sid, hty, h⟩
    rintro w w' sid hgrows ⟨ty, hty, h⟩
    exact ⟨ty, hty, lasting_answered ty w w' sid hgrows h⟩

/-- A library that compiles is finished. -/
theorem finished_of_compile {written : List Event}
    (h : (lib.compile used written).1 = .ok sys) : lib.Finished used sys := by
  obtain ⟨-, bench, done, hmerge, hall, rfl⟩ := compile_eq_ok.1 h
  obtain ⟨-, hunderway, hcomplete⟩ := achieves_compileAllDeclarations lib used bench
    (underway_of_mergeUsed hmerge) () done hall
  exact ⟨rfl, hunderway.course, hcomplete⟩

end TypeLibrary

end StrictContract
