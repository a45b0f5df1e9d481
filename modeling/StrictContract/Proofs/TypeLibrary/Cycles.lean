import StrictContract.Codec.Declaration
import StrictContract.Proofs.TypeLibrary.Unrolling

/-! # Cycles — what refers to itself cannot be compiled

The course of a library puts each name behind those that it refers to, and the sequence of libraries
puts each one behind those that it uses. A relation that only leads to earlier items of a list has no
cycle; so nothing with a cycle has a course, and the compiler, which always ends, ends with an
error. -/

namespace StrictContract

open TypeSystem

/-- What stands before an item of a list without repetitions has a smaller index. -/
theorem idxOf_lt_of_earlier {α : Type} [DecidableEq α] {items before after : List α} {a b : α}
    (hnodup : items.Nodup) (hsplit : items = before ++ a :: after) (hb : b ∈ before) :
    items.idxOf b < items.idxOf a := by
  subst hsplit
  have ha : a ∉ before := fun ha => (List.disjoint_of_nodup_append hnodup) ha (List.mem_cons_self ..)
  rw [List.idxOf_append_of_mem hb, List.idxOf_append_of_notMem ha]
  have := List.idxOf_lt_length_of_mem hb
  omega

/-- A relation that only leads to earlier items of a list has no cycle. -/
theorem not_transGen_self_of_earlier {α : Type} [DecidableEq α] {R : α → α → Prop} {items : List α}
    (hnodup : items.Nodup) (hearlier : ∀ a b, R a b → ∃ before after,
      items = before ++ a :: after ∧ b ∈ before) (a : α) : ¬ Relation.TransGen R a a := by
  have hstep : ∀ a b, R a b → items.idxOf b < items.idxOf a := by
    intro a b hab
    obtain ⟨before, after, hsplit, hb⟩ := hearlier a b hab
    exact idxOf_lt_of_earlier hnodup hsplit hb
  have hpath : ∀ a b, Relation.TransGen R a b → items.idxOf b < items.idxOf a := by
    intro a b hab
    induction hab with
    | single h => exact hstep _ _ h
    | tail _ h ih => exact Nat.lt_trans (hstep _ _ h) ih
  exact fun h => Nat.lt_irrefl _ (hpath a a h)

namespace TypeLibrary

variable {lib : TypeLibrary} {used : List (String × SymbolicSystem)} {sys : SymbolicSystem}
  {libs : List TypeLibrary} {done : List (String × SymbolicSystem)}

/-! ## Declarations -/

/-- The course puts a name behind those that it refers to. -/
theorem Finished.earlier (h : lib.Finished used sys) {a b : String} (ha : IsLocal a) (hb : IsLocal b)
    (hrefers : lib.Refers a b) : ∃ before after,
      sys.names.map Prod.fst = before ++ a :: after ∧ b ∈ before := by
  obtain ⟨decl, hdecl, hmem⟩ := hrefers
  obtain ⟨sid, hsid⟩ := h.exists_lookup ha hdecl
  obtain ⟨before, after, hsplit⟩ := List.append_of_mem (mem_of_lookup hsid)
  obtain ⟨t, rfl, -, hsettled⟩ := h.course.settled before (a, sid) after hsplit
  refine ⟨t.names.map Prod.fst, after.map Prod.fst, by rw [hsplit]; simp, ?_⟩
  obtain ⟨ty, sid', hty, hanswered⟩ := hsettled.answered hdecl _ hmem
  obtain rfl := Value.text.inj hty
  cases hanswered with
  | builtin hbuiltin _ _ => simp [hb.ordinary] at hbuiltin
  | qualified _ hcut _ _ => simp [hb.plain] at hcut
  | compiled _ _ hknown => exact isSome_lookup.1 (by rw [hknown]; rfl)

/-- A library that is finished has no cycle. -/
theorem Finished.not_hasCycle (h : lib.Finished used sys) : ¬ lib.HasCycle IsLocal := by
  rintro ⟨a, hcycle⟩
  exact not_transGen_self_of_earlier h.course.nodup
    (fun _ _ ⟨ha, hb, hrefers⟩ => h.earlier ha hb hrefers) a hcycle

/-- What a reference in a library **resolved** to when it was compiled. -/
inductive Resolved (lib : TypeLibrary) (used : List (String × SymbolicSystem)) (sys : SymbolicSystem) :
    Value → Prop
  | builtin {ty : String} {c : Codec} (h : Codec.builtin? ty = some c) :
      Resolved lib used sys (.text ty)
  | declared {ty : String} {decl : Value} {sid : SemId} (hlocal : IsLocal ty)
      (hdecl : Value.lookup? (.text ty) lib.declarations = some decl)
      (hsid : sys.names.lookup ty = some sid) : Resolved lib used sys (.text ty)
  | dependency {ty library name : String} {dep : SymbolicSystem} {sid : SemId}
      (hcut : Text.cutFirst? '.' ty = some (library, name)) (hused : used.lookup library = some dep)
      (hresolve : dep.resolve name = .ok sid) : Resolved lib used sys (.text ty)

/-- Every reference of a local declaration of a finished library resolved. -/
theorem Finished.resolved (h : lib.Finished used sys) {name : String} (hlocal : IsLocal name)
    {decl : Value} (hdecl : Value.lookup? (.text name) lib.declarations = some decl) :
    ∀ v ∈ references decl, lib.Resolved used sys v := by
  intro v hv
  obtain ⟨sid, hsid⟩ := h.exists_lookup hlocal hdecl
  have hsettled := h.course.settled_mem (mem_of_lookup hsid)
  obtain ⟨ty, sid', rfl, hanswered⟩ := hsettled.answered hdecl v hv
  cases hanswered with
  | builtin hbuiltin _ _ => exact .builtin hbuiltin
  | qualified _ hcut hused hresolve => exact .dependency hcut hused hresolve
  | compiled hordinary hplain hknown =>
    obtain ⟨decl', hdecl', -⟩ := (h.course.settled_mem (mem_of_lookup hknown)).declared
    exact .declared ⟨hordinary, hplain⟩ hdecl' hknown

/-! ## Libraries -/

/-- Whether the first library **uses** the second one, by their names. -/
def Uses (libs : List TypeLibrary) (a b : String) : Prop :=
  ∃ lib ∈ libs, lib.name = a ∧ b ∈ lib.uses

/-- Of libraries with pairwise different names the one with a name is found. -/
theorem find?_eq_some_iff (hnames : (libs.map TypeLibrary.name).Nodup) {name : String} :
    find? libs name = some lib ↔ lib ∈ libs ∧ lib.name = name := by
  refine ⟨find?_eq_some, fun ⟨hmem, hname⟩ => ?_⟩
  have hsome : (find? libs name).isSome = true :=
    List.find?_isSome.2 ⟨lib, List.mem_reverse.2 hmem, by simpa using hname⟩
  obtain ⟨found, hfound⟩ := Option.isSome_iff_exists.1 hsome
  obtain ⟨hmem', hname'⟩ := find?_eq_some hfound
  rw [hfound, List.inj_on_of_nodup_map hnames hmem' hmem (hname'.trans hname.symm)]

/-- The sequence puts a library behind those that it uses. -/
theorem Sequence.earlier (h : Sequence libs done) (hnames : (libs.map TypeLibrary.name).Nodup)
    (hall : ∀ lib ∈ libs, lib.name ∈ done.map Prod.fst) {a b : String} (huses : Uses libs a b) :
    ∃ before after, done.map Prod.fst = before ++ a :: after ∧ b ∈ before := by
  obtain ⟨lib, hlib, rfl, hb⟩ := huses
  obtain ⟨⟨name, sys⟩, he, heq⟩ := List.mem_map.1 (hall lib hlib)
  obtain ⟨before, after, rfl⟩ := List.append_of_mem he
  obtain ⟨found, hfound, hbefore, -⟩ := h.compiled before _ after rfl
  obtain rfl := Option.some.inj (((find?_eq_some_iff hnames).2 ⟨hlib, heq.symm⟩).symm.trans hfound)
  exact ⟨before.map Prod.fst, after.map Prod.fst, by simp [← heq], hbefore b hb⟩

/-- Every compiled library is one of the list. -/
theorem Sequence.listed (h : Sequence libs done) {name : String} (hname : name ∈ done.map Prod.fst) :
    name ∈ libs.map TypeLibrary.name := by
  obtain ⟨e, he, rfl⟩ := List.mem_map.1 hname
  obtain ⟨before, after, hsplit⟩ := List.append_of_mem he
  obtain ⟨lib, hfind, -⟩ := h.compiled before e after hsplit
  obtain ⟨hmem, hlib⟩ := find?_eq_some hfind
  exact hlib ▸ List.mem_map_of_mem hmem

/-- All libraries of a list with different names are compiled, each once. -/
theorem Sequence.perm_names (h : Sequence libs done) (hnames : (libs.map TypeLibrary.name).Nodup)
    (hall : ∀ lib ∈ libs, lib.name ∈ done.map Prod.fst) :
    (done.map Prod.fst).Perm (libs.map TypeLibrary.name) := by
  refine (List.perm_ext_iff_of_nodup h.nodup hnames).2 fun name => ⟨h.listed, fun hname => ?_⟩
  obtain ⟨lib, hlib, rfl⟩ := List.mem_map.1 hname
  exact hall lib hlib

/-- **Compiling ends, and rejects exactly the cycles.** Unrolled further than there are declarations,
the step compiles references whatever stands for the deeper calls. A library that compiles has no cycle
of local names, and all references in its local declarations resolved; with a cycle there is an error;
without one the names on the way are not needed. Libraries with different names are compiled by a
recursion that ends, too: if they compile, then each uses only some of the list, without a cycle, and
was compiled with the results of those that it uses, which came before. -/
theorem compile_rejects_cycles :
    (∀ (lib : TypeLibrary) (used : List (String × SymbolicSystem)),
      (∀ recur n, lib.declarations.length < n → (compileStep lib used)^[n] recur [] =
        compileReference lib used (lib.declarations.length + 1) []) ∧
      (∀ sys written, (lib.compile used written).1 = .ok sys → ¬ lib.HasCycle IsLocal ∧
        ∀ name decl, IsLocal name → Value.lookup? (.text name) lib.declarations = some decl →
          ∀ v ∈ references decl, lib.Resolved used sys v) ∧
      (lib.HasCycle IsLocal → ∀ written, ∃ e, (lib.compile used written).1 = .error e) ∧
      (¬ lib.HasCycle IsLocal → ∀ run n, lib.declarations.length < n →
        (fun run => compileStep lib used (fun _ => run) [])^[n] run =
          compileReference lib used (lib.declarations.length + 1) [])) ∧
    ∀ libs : List TypeLibrary, (libs.map TypeLibrary.name).Nodup →
      (∀ recur n, libs.length < n → (namedStep libs)^[n] recur [] =
        compileNamed libs (libs.length + 2) []) ∧
      ∀ done written, (compileAll libs written).1 = .ok done →
        (∀ a b, Uses libs a b → b ∈ libs.map TypeLibrary.name) ∧
        (∀ a, ¬ Relation.TransGen (Uses libs) a a) ∧
        (done.map Prod.fst).Perm (libs.map TypeLibrary.name) ∧
        ∀ before name sys after, done = before ++ (name, sys) :: after →
          ∃ lib ∈ libs, lib.name = name ∧ (∀ dep ∈ lib.uses, dep ∈ before.map Prod.fst) ∧
            ∃ written, (lib.compile (lib.provided before) written).1 = .ok sys := by
  refine ⟨fun lib used => ⟨fun recur n hn => ?_, fun sys written h => ?_, fun hcycle written => ?_,
    fun hacyclic run n hn => ?_⟩, fun libs hnames => ⟨fun recur n hn => ?_, fun done written h => ?_⟩⟩
  · exact iterate_compileStep_eq recur hn
  · have hfinished := finished_of_compile h
    exact ⟨hfinished.not_hasCycle, fun name decl hlocal => hfinished.resolved hlocal⟩
  · cases h : (lib.compile used written).1 with
    | error e => exact ⟨e, rfl⟩
    | ok sys => exact absurd hcycle (finished_of_compile h).not_hasCycle
  · rw [← iterate_compileStep_eq (fun _ => run) hn]
    funext v
    exact (iterate_compileStep_eq_unchained hacyclic run n fun _ _ _ _ hname =>
      absurd hname List.not_mem_nil).symm
  · exact iterate_namedStep_eq recur hn
  · obtain ⟨hsequence, hall⟩ := ensures_compileAll_sequence written done h
    have hearlier := fun a b => hsequence.earlier (a := a) (b := b) hnames hall
    refine ⟨fun a b huses => ?_, not_transGen_self_of_earlier hsequence.nodup hearlier,
      hsequence.perm_names hnames hall, ?_⟩
    · obtain ⟨before, after, hsplit, hb⟩ := hearlier a b huses
      exact hsequence.listed (hsplit ▸ List.mem_append_left _ hb)
    · intro before name sys after hsplit
      obtain ⟨lib, hfind, huses, hcompile⟩ := hsequence.compiled before (name, sys) after hsplit
      obtain ⟨hlib, hname⟩ := find?_eq_some hfind
      exact ⟨lib, hlib, hname, huses, hcompile⟩

/-- A library in which two names refer to each other. -/
def entwined : TypeLibrary where
  name := "Entwined"
  uses := []
  description := ""
  declarations := Declaration.named [
    ("Tree", Declaration.entries [("list", .text "Forest")]), ("Forest", .text "Tree")]

/-- A library with another name for a builtin. -/
def wording : TypeLibrary where
  name := "Lower"
  uses := []
  description := ""
  declarations := Declaration.named [("Word", .text "U32")]

/-- A library before the one that it uses. -/
def layered : List TypeLibrary := [
  { name := "Upper", uses := ["Lower"], description := "",
    declarations := Declaration.named [("Phrase", .text "Lower.Word")] },
  wording]

/-- Names that refer to each other are rejected. A library without them compiles, and its names need no
chain. Two libraries are compiled in the order in which they use each other. -/
theorem compile_rejects_cycles_entwined : (∃ e, (entwined.compile [] []).1 = .error e) ∧
    (∃ sys, (wording.compile [] []).1 = .ok sys ∧ ¬ wording.HasCycle IsLocal ∧
      (fun run => compileStep wording [] (fun _ => run) [])^[2] (recollect []) =
        compileReference wording [] 2 []) ∧
    (layered.map TypeLibrary.name).Nodup ∧ ∃ done, (compileAll layered []).1 = .ok done ∧
      (∀ a, ¬ Relation.TransGen (Uses layered) a a) ∧
      (done.map Prod.fst).Perm ["Upper", "Lower"] := by
  have hcycle : entwined.HasCycle IsLocal := by
    have htree : IsLocal "Tree" := ⟨by decide, by decide⟩
    have hforest : IsLocal "Forest" := ⟨by decide, by decide⟩
    have hdown : entwined.Refers "Tree" "Forest" := ⟨Declaration.entries [("list", .text "Forest")],
      by simp [entwined, Declaration.named, Value.lookup?, Value.same],
      by simp [references, formReferences, Declaration.entries, Value.ofFields, Value.entry?,
        Value.lookup?, Value.same]⟩
    have hup : entwined.Refers "Forest" "Tree" := ⟨.text "Tree",
      by simp [entwined, Declaration.named, Value.lookup?, Value.same], List.mem_singleton.2 rfl⟩
    exact ⟨"Tree", .tail (.single ⟨htree, hforest, hdown⟩) ⟨hforest, htree, hup⟩⟩
  have hsome : (wording.compile [] []).1.toOption.isSome = true := by with_unfolding_all rfl
  obtain ⟨sys, hsys⟩ := Option.isSome_iff_exists.1 hsome
  have hwording := toOption_eq_some.1 hsys
  have hstraight := ((compile_rejects_cycles.1 wording []).2.1 sys [] hwording).1
  have hunchained := (compile_rejects_cycles.1 wording []).2.2.2 hstraight (recollect []) 2 (by decide)
  have hnames : (layered.map TypeLibrary.name).Nodup := by decide
  have hsome : (compileAll layered []).1.toOption.isSome = true := by with_unfolding_all rfl
  obtain ⟨done, hdone⟩ := Option.isSome_iff_exists.1 hsome
  have hcompile := toOption_eq_some.1 hdone
  obtain ⟨-, hacyclic, hperm, -⟩ := (compile_rejects_cycles.2 layered hnames).2 done [] hcompile
  exact ⟨(compile_rejects_cycles.1 entwined []).2.2.1 hcycle [], ⟨sys, hwording, hstraight, hunchained⟩,
    hnames, done, hcompile, hacyclic, hperm⟩

/-- Libraries of which one declares a qualified name, as another name for what it is qualified with. -/
def qualifying : List TypeLibrary := [
  wording,
  { name := "Upper", uses := ["Lower"], description := "",
    declarations := Declaration.named [("Lower.Word", .text "Lower.Word")] }]

/-- A declared name that is qualified may stand in its own declaration: there it belongs to the library
that it is qualified with, so the cycle is compiled. -/
theorem compile_permits_qualified_cycle :
    (∃ lib ∈ qualifying, lib.HasCycle fun name => Codec.builtin? name = none) ∧
      ∃ done, (compileAll qualifying []).1 = .ok done := by
  have hsome : (compileAll qualifying []).1.toOption.isSome = true := by with_unfolding_all rfl
  obtain ⟨done, hdone⟩ := Option.isSome_iff_exists.1 hsome
  refine ⟨⟨_, List.mem_cons_of_mem _ (List.mem_singleton.2 rfl), "Lower.Word", .single ⟨?_, ?_, ?_⟩⟩,
    done, toOption_eq_some.1 hdone⟩
  · decide
  · decide
  · exact ⟨.text "Lower.Word", by simp [Declaration.named, Value.lookup?, Value.same],
      List.mem_singleton.2 rfl⟩

end TypeLibrary

end StrictContract
