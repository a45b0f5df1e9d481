import StrictContract.Proofs.TypeLibrary.Course
import StrictContract.Proofs.TypeLibrary.Transcribing

/-! # Indexing — which names a compiled library has

The index of a compiled library has the declared names that are **local**, each with the id that its own
declaration gives. References prefer builtins, and the declarations are compiled like references, so a
type that is declared under the name of a builtin is left out. -/

namespace StrictContract

open TypeSystem

/-- No name of a builtin is qualified. -/
theorem Codec.cutLast?_of_builtin {name : String} (h : (Codec.builtin? name).isSome = true) :
    Text.cutLast? '.' name = none := by
  unfold Codec.builtin? at h
  split at h
  all_goals first | decide | cases h

namespace TypeLibrary

variable {lib : TypeLibrary} {used : List (String × SymbolicSystem)} {sys : SymbolicSystem}

/-- The names of a finished library are the local ones that it declares. -/
theorem Finished.mem_names (h : lib.Finished used sys) {name : String} :
    name ∈ sys.names.map Prod.fst ↔
      IsLocal name ∧ ∃ decl, Value.lookup? (.text name) lib.declarations = some decl := by
  constructor
  · intro hname
    obtain ⟨e, he, rfl⟩ := List.mem_map.1 hname
    have hsettled := h.course.settled_mem he
    obtain ⟨decl, hdecl, -⟩ := hsettled.declared
    exact ⟨hsettled.toIsLocal, decl, hdecl⟩
  · rintro ⟨hlocal, decl, hdecl⟩
    obtain ⟨sid, hsid⟩ := h.exists_lookup hlocal hdecl
    exact isSome_lookup.1 (by rw [hsid]; rfl)

/-- What compiles its declarations has each local name once, under the id that its own declaration gives
when it is compiled again, and which it declares. A builtin has no name in it, declared or not. -/
theorem names_of_compile {written : List Event} (h : (lib.compile used written).1 = .ok sys) :
    (sys.names.map Prod.fst).Nodup ∧
    (∀ name, name ∈ sys.names.map Prod.fst ↔
      IsLocal name ∧ ∃ decl, Value.lookup? (.text name) lib.declarations = some decl) ∧
    (∀ name decl, IsLocal name → Value.lookup? (.text name) lib.declarations = some decl →
      ∃ sid, sys.resolve name = .ok sid ∧
        compileDeclaration (recollect used) decl name ⟨sys.types, sys.names⟩ =
          (.ok sid, ⟨sys.types, sys.names⟩) ∧
        Declares (fun ty sid => meaning? used sys.names ty = some sid) sys.types name decl sid) ∧
    ∀ name, (Codec.builtin? name).isSome = true →
      sys.resolve name = fail (.noTypeNamed lib.name name) := by
  have hfinished := finished_of_compile h
  have hcompiled := compiled_of_compile h
  refine ⟨hfinished.course.nodup, fun name => hfinished.mem_names, fun name decl hlocal hdecl => ?_,
    fun name hbuiltin => ?_⟩
  · obtain ⟨sid, hsid⟩ := hfinished.exists_lookup hlocal hdecl
    obtain ⟨decl', hdecl', hrun⟩ := (hfinished.course.settled_mem (mem_of_lookup hsid)).declared
    obtain rfl := Option.some.inj (hdecl.symm.trans hdecl')
    obtain ⟨-, -, decl', hdecl', hdeclares⟩ := hcompiled.established _ (mem_of_lookup hsid)
    obtain rfl := Option.some.inj (hdecl.symm.trans hdecl')
    refine ⟨sid, ?_, hrun, hdeclares⟩
    rw [SymbolicSystem.resolve, Text.cutLast?_of_cutFirst? hlocal.plain]
    dsimp only
    rw [SymbolicSystem.resolveLocal, hsid]
  · have hnone : sys.names.lookup name = none := by
      rw [← Option.not_isSome_iff_eq_none, isSome_lookup, hfinished.mem_names]
      rintro ⟨hlocal, -⟩
      rw [hlocal.ordinary] at hbuiltin
      cases hbuiltin
    rw [SymbolicSystem.resolve, Codec.cutLast?_of_builtin hbuiltin]
    dsimp only
    rw [SymbolicSystem.resolveLocal, hnone, hfinished.library]

/-- The other name of a primitive type and this type have their ids. -/
theorem names_of_compile_alias : ∃ sys, (counting.compile [] []).1 = .ok sys ∧
    (∀ name, name ∈ sys.names.map Prod.fst ↔ IsLocal name ∧
      ∃ decl, Value.lookup? (.text name) counting.declarations = some decl) ∧
    ∃ sid, sys.resolve "Count" = .ok sid ∧ sys.resolve "U8" = fail (.noTypeNamed "Counting" "U8") := by
  have hsome : (counting.compile [] []).1.toOption.isSome = true := by with_unfolding_all rfl
  obtain ⟨sys, hsys⟩ := Option.isSome_iff_exists.1 hsome
  have hcompile := toOption_eq_some.1 hsys
  obtain ⟨-, hnames, hresolve, hbuiltin⟩ := names_of_compile hcompile
  obtain ⟨sid, hsid, -⟩ := hresolve "Count" (.text "Word") ⟨by decide, by decide⟩
    (by simp [counting, Declaration.named, Value.lookup?, Value.same])
  exact ⟨sys, hcompile, hnames, sid, hsid, hbuiltin "U8" (by decide)⟩

/-- A document that declares a builtin compiles, and its declaration is nowhere. -/
theorem names_lack_builtin :
    (documentOf "Shadowing" [("U8", Declaration.entries [("primitive", .int 2)])]).isDocument = true ∧
    ofDocument (documentOf "Shadowing" [("U8", Declaration.entries [("primitive", .int 2)])]) =
      .ok shadowing ∧
    ∃ sys, (shadowing.compile [] []).1 = .ok sys ∧
      (∃ decl, Value.lookup? (.text "U8") shadowing.declarations = some decl) ∧
      sys.names = [] ∧ sys.types.size = 1 ∧
      sys.resolve "U8" = fail (.noTypeNamed "Shadowing" "U8") := by
  have hcheck : DocumentSchema.typeLibrary.check
      (documentOf "Shadowing" [("U8", Declaration.entries [("primitive", .int 2)])]) = .ok [] :=
    DocumentSchema.check_eq_nil.2 (List.isEmpty_iff.1 (by with_unfolding_all rfl))
  have hrun : ((shadowing.compile [] []).1.toOption.map fun sys =>
      (sys.library, sys.names, sys.types.size)) = some ("Shadowing", [], 1) := by with_unfolding_all rfl
  obtain ⟨sys, hsys, hparts⟩ := Option.map_eq_some_iff.1 hrun
  obtain ⟨hlibrary, hnames, hsize⟩ : sys.library = "Shadowing" ∧ sys.names = [] ∧ sys.types.size = 1 := by
    simpa using hparts
  have hcut : Text.cutLast? '.' "U8" = none := by decide
  refine ⟨rfl, ofDocument_documentOf hcheck, sys, toOption_eq_some.1 hsys,
    ⟨Declaration.entries [("primitive", .int 2)], ?_⟩, hnames, hsize, ?_⟩
  · simp [shadowing, Declaration.named, Value.lookup?, Value.same]
  · rw [SymbolicSystem.resolve, hcut]
    dsimp only
    rw [SymbolicSystem.resolveLocal, hnames, hlibrary]
    rfl

end TypeLibrary

end StrictContract
