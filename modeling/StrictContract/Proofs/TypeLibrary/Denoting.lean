import StrictContract.Proofs.TypeLibrary.Document
import StrictContract.Proofs.TypeLibrary.Libraries
import StrictContract.Proofs.TypeSystem.Binding
import StrictContract.Proofs.TypeSystem.Construction

/-! # Denoting — what a compiled library stores for a declaration

Under the id of a declared name a compiled library stores the definition that the form of its
declaration describes, and another name for a type has the id of that type. The definition has all
that the form says, with one exception: of the variants of a union that have one tag only the last one
is kept, and nothing tells that the others are gone. So it is **whole** exactly if the tags of the
union are different. -/

namespace StrictContract

open TypeSystem

/-! ## What is described -/

namespace Form

variable {means : String → SemId → Prop} {form : Form} {d : TypeDef}

/-- What a form describes is in normal form. -/
theorem Describes.normal (h : form.Describes means d) : d.Normal := by
  cases h with
  | @union variants rows hrows =>
    have hle : (rows.map Prod.fst).Pairwise (· ≤ ·) := by
      rw [tags_of_rows hrows, List.pairwise_map]
      exact pairwise_le_mergeSort (fun v : String × Nat × String => v.2.1) variants
    -- the rows that are kept have different tags, in the order in which these ascend
    have hlt : ((lastByKey Prod.fst rows).map Prod.fst).Pairwise (· < ·) :=
      (hle.sublist sublist_keys_lastByKey).imp₂ (fun _ _ => Nat.lt_of_le_of_ne) nodup_keys_lastByKey
    exact List.pairwise_map.1 hlt
  | option hnone hsome => exact List.pairwise_pair.2 Nat.zero_lt_one
  | _ => trivial

/-- The tags of a union are **different**. Of other forms nothing is asked: the members of an
enumeration with one tag are refused. -/
def TagsDiffer : Form → Prop
  | union variants => (variants.map fun v => v.2.1).Nodup
  | _ => True

/-- A definition is **whole**: it has a row for every variant of a union. -/
def Whole (means : String → SemId → Prop) : Form → TypeDef → Prop
  | union variants, d => ∃ vs rows, vs.Perm variants ∧ d = .union rows ∧
      List.Forall₂ (fun v row => row.1 = v.2.1 ∧ row.2.1 = v.1 ∧ means v.2.2 row.2.2) vs rows
  | _, _ => True

/-- What a form describes is whole exactly if the tags are different. -/
theorem Describes.whole_iff (h : form.Describes means d) : form.Whole means d ↔ form.TagsDiffer := by
  cases h with
  | @union variants rows hrows =>
    have hperm : (variants.mergeSort fun a b => decide (a.2.1 ≤ b.2.1)).Perm variants :=
      List.mergeSort_perm _ _
    constructor
    · -- a row for every variant, and no two rows with one tag
      rintro ⟨vs, kept, hvs, hkept, hall⟩
      obtain rfl := Definition.union.inj hkept
      have htags : (vs.map fun v => v.2.1).Nodup := tags_of_rows hall ▸ nodup_keys_lastByKey
      exact (hvs.map _).nodup_iff.1 htags
    · intro htags
      have hrowtags : (rows.map Prod.fst).Nodup :=
        tags_of_rows hrows ▸ (hperm.map _).nodup_iff.2 htags
      exact ⟨_, rows, hperm, by rw [lastByKey_eq_self hrowtags], hrows⟩
  | _ => exact Iff.rfl

end Form

/-! ## What is stored -/

/-- A type system **stores** a definition under an id: the id is that of the definition, and what
stands there is the definition or collides with it. -/
def TypeSystem.Stores (ts : TypeSystem) (sid : SemId) (d : TypeDef) : Prop :=
  d.toDraft.semId = .ok sid ∧ ∃ stored, ts.get? sid = some stored ∧
    (stored = d ∨ Collide .sem stored.toDraft.encode d.toDraft.encode)

/-- In a well-formed system a definition in normal form that stands is stored. -/
theorem TypeSystem.WellFormed.stores {ts : TypeSystem} (h : ts.WellFormed) {d : TypeDef} {sid : SemId}
    (hd : d.Normal) (hstands : ts.Stands d.toDraft sid) : ts.Stores sid d := by
  obtain ⟨stored, hstored⟩ := Option.isSome_iff_exists.1 hstands.held
  have hmem := h.get?_eq_some.1 hstored
  exact ⟨hstands.named, stored, hstored,
    eq_or_collide_of_semId (h.normal _ hmem) hd (h.named _ hmem) hstands.named⟩

namespace TypeLibrary

variable {lib : TypeLibrary} {used : List (String × SymbolicSystem)} {sys : SymbolicSystem}

/-- What a compiled library has for a declared name: for another name of a type the id of that type,
for a form the definition that it describes, whole if the tags are different. -/
inductive Denotes (used : List (String × SymbolicSystem)) (sys : SymbolicSystem) (sid : SemId) :
    Value → Prop
  | alias {target : String} (h : meaning? used sys.names target = some sid) :
      Denotes used sys sid (.text target)
  | form {decl : Value} {form : Form} {d : TypeDef} (hform : Form.ofValue? decl = some form)
      (hd : form.Describes (fun ty sid => meaning? used sys.names ty = some sid) d)
      (hstored : sys.types.Stores sid d)
      (hwhole : form.Whole (fun ty sid => meaning? used sys.names ty = some sid) d ↔ form.TagsDiffer) :
      Denotes used sys sid decl

/-- Every name of a compiled document has what its declaration denotes. -/
theorem denotes_of_compile {document : Value} (hdocument : document.isDocument = true)
    (hlib : ofDocument document = .ok lib) (hused : ∀ e ∈ used, e.2.types.WellFormed)
    {written : List Event} (h : (lib.compile used written).1 = .ok sys) :
    ∀ e ∈ sys.names, ∃ decl, Value.lookup? (.text e.1) lib.declarations = some decl ∧
      Denotes used sys e.2 decl := by
  have hcompiled := compiled_of_compile h
  have hwellFormed : sys.types.WellFormed := hcompiled.types _ hereditary_wellFormed hused
  intro e he
  obtain ⟨-, -, decl, hdecl, hdeclares⟩ := hcompiled.established e he
  refine ⟨decl, hdecl, ?_⟩
  -- in a document nothing else is declared than references and forms
  obtain ⟨k, hk, -⟩ := Value.exists_mem_of_lookup? hdecl
  rcases (readable_of_ofDocument hdocument hlib _ hk).2 with ⟨target, rfl⟩ | ⟨form, hform⟩
  · exact .alias (hdeclares.target target rfl)
  · obtain ⟨-, d, hd, hstands⟩ := hdeclares.described form hform
    exact .form hform hd (hwellFormed.stores hd.normal hstands) hd.whole_iff

/-- An enumeration has its members, and another name for it has its id. -/
theorem denotes_of_compile_alias : ∃ lib sys,
    (documentOf "Colours" colours).isDocument = true ∧
    ofDocument (documentOf "Colours" colours) = .ok lib ∧ (lib.compile [] []).1 = .ok sys ∧
    ∀ e ∈ sys.names, ∃ decl, Value.lookup? (.text e.1) lib.declarations = some decl ∧
      Denotes [] sys e.2 decl := by
  have hlib := ofDocument_documentOf check_colours
  have hsome : (compile ⟨"Colours", Declaration.named colours, [], ""⟩ [] []).1.toOption.isSome =
    true := by decide +kernel
  obtain ⟨sys, hsys⟩ := Option.isSome_iff_exists.1 hsome
  have hcompile := toOption_eq_some.1 hsys
  exact ⟨_, sys, rfl, hlib, hcompile, denotes_of_compile rfl hlib nofun hcompile⟩

/-- The declaration of a union with two variants under one tag. -/
def forked : Value := Declaration.entries [("union", Declaration.entries [
  ("left", Declaration.entries [("tag", .int 0), ("type", .text "U8")]),
  ("right", Declaration.entries [("tag", .int 0), ("type", .text "U8")])])]

/-- A union with two variants under one tag is compiled to a union with one of them. -/
theorem compile_drops_variant : ∃ lib sys sid ty,
    (documentOf "Forking" [("Choice", forked)]).isDocument = true ∧
    ofDocument (documentOf "Forking" [("Choice", forked)]) = .ok lib ∧
    (lib.compile [] []).1 = .ok sys ∧
    Value.lookup? (.text "Choice") lib.declarations = some forked ∧
    Form.ofValue? forked = some (.union [("left", 0, "U8"), ("right", 0, "U8")]) ∧
    sys.names.lookup "Choice" = some sid ∧ sys.types.get? sid = some (.union [(0, "right", ty)]) := by
  have hcheck : DocumentSchema.typeLibrary.check (documentOf "Forking" [("Choice", forked)]) = .ok [] :=
    DocumentSchema.check_eq_nil.2 (List.isEmpty_iff.1 (by decide +kernel))
  have hrun : ((compile ⟨"Forking", Declaration.named [("Choice", forked)], [], ""⟩ [] []).1.toOption.bind
      fun sys => (sys.names.lookup "Choice").bind sys.types.get?) =
        some (.union [(0, "right", Id.ofContent .sem [0, 1])]) := by decide +kernel
  obtain ⟨sys, hsys, hrun⟩ := Option.bind_eq_some_iff.1 hrun
  obtain ⟨sid, hsid, hget⟩ := Option.bind_eq_some_iff.1 hrun
  refine ⟨_, sys, sid, _, rfl, ofDocument_documentOf hcheck, toOption_eq_some.1 hsys, ?_, ?_, hsid, hget⟩
  · simp [Declaration.named, Value.lookup?, Value.same]
  · decide +kernel

end TypeLibrary

end StrictContract
