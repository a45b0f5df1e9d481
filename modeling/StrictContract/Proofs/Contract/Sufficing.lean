import StrictContract.Proofs.Codec.Failing
import StrictContract.Proofs.Contract.Conformance
import StrictContract.Proofs.TypeLibrary.Libraries
import StrictContract.Proofs.TypeSystem.Extraction
import StrictContract.Proofs.TypeSystem.Language
import StrictContract.TypeLibrary.Standard

/-! # Sufficing — the types of a schema are enough to check with

A schema names the types of its metadata, of its global and of its owned state. What these types reach
inside the standard types can be extracted just when the standard types hold all of them. The part
describes each of these types by the same codec as the whole does, so every check against the schema
has the same outcome with the part as with the whole. -/

namespace StrictContract

open TypeSystem

variable {ts part : TypeSystem} {roots : List SemId} {schema : Schema}

/-! ## Extracting -/

namespace TypeSystem

/-- A root that is absent is found out about. -/
theorem WellFormed.collect_of_missing (h : ts.WellFormed) {fuel : Nat} {stack : List SemId}
    {found : List (SemId × TypeDef)} (hdrawn : ∀ e ∈ found, ts.get? e.1 = some e.2)
    (hmissing : ∃ sid ∈ stack, ts.contains sid = false)
    (hfuel : stack.length + ahead ts.entries found ≤ fuel) :
    ∃ sid : SemId, ts.collect fuel stack found = fail (.typeAbsent sid.text) := by
  -- the sum of what is on the stack and of what is ahead decreases with every visit
  induction fuel generalizing stack found with
  | zero =>
    obtain ⟨sid, hsid, -⟩ := hmissing
    have hpos := List.length_pos_of_mem hsid
    omega
  | succ fuel ih =>
    cases stack with
    | nil =>
      obtain ⟨sid, hsid, -⟩ := hmissing
      cases hsid
    | cons sid stack =>
      rw [List.length_cons] at hfuel
      rw [collect]
      obtain ⟨absent, hmem, habsent⟩ := hmissing
      have hrest : ts.contains sid = true → absent ∈ stack := by
        intro hin
        rcases List.mem_cons.1 hmem with rfl | hmem
        · rw [hin] at habsent
          cases habsent
        · exact hmem
      by_cases hold : sid ∈ found.map Prod.fst
      · obtain ⟨e, he, rfl⟩ := List.mem_map.1 hold
        have hin : ts.contains e.1 = true := Option.isSome_iff_exists.2 ⟨e.2, hdrawn e he⟩
        rw [if_pos (isSome_lookup.2 hold)]
        exact ih hdrawn ⟨absent, hrest hin, habsent⟩ (by omega)
      · rw [if_neg (mt isSome_lookup.1 hold), find]
        cases hget : ts.get? sid with
        | none => exact ⟨sid, rfl⟩
        | some d =>
          have hahead := ahead_note h.nodup (h.get?_eq_some.1 hget) hold
          have hin : ts.contains sid = true := Option.isSome_iff_exists.2 ⟨d, hget⟩
          refine ih (List.forall_mem_cons.2 ⟨hget, hdrawn⟩)
            ⟨absent, List.mem_append_right _ (hrest hin), habsent⟩ ?_
          rw [List.length_append, List.length_reverse]
          omega

/-- Nothing is extracted from a root that is absent. -/
theorem WellFormed.extract_of_missing (h : ts.WellFormed)
    (hmissing : ∃ root ∈ roots, ts.contains root = false) :
    ∃ sid : SemId, ts.extract roots = fail (.typeAbsent sid.text) := by
  obtain ⟨root, hroot, habsent⟩ := hmissing
  have hfuel : roots.reverse.length + ahead ts.entries [] ≤ ts.visitBound roots := by
    have hbound := visitBound_eq ts roots
    rw [List.length_reverse]
    omega
  obtain ⟨sid, hcollect⟩ := h.collect_of_missing (fun e (he : e ∈ []) => nomatch he)
    ⟨root, List.mem_reverse.2 hroot, habsent⟩ hfuel
  refine ⟨sid, ?_⟩
  unfold extract
  rw [hcollect]
  rfl

/-- A part **suffices** for some ids when it holds them, and describes each of them like the
whole. -/
structure Suffices (part ts : TypeSystem) (sids : List SemId) : Prop where
  held : ∀ sid ∈ sids, part.contains sid = true
  whole : ∀ sid ∈ sids, ts.contains sid = true
  described : ∀ sid ∈ sids, part.codecOf sid = ts.codecOf sid

/-- What is extracted from a grown system suffices for the roots. -/
theorem Grown.exists_suffices (h : ts.Grown) (hroots : ∀ root ∈ roots, ts.contains root = true) :
    ∃ part, ts.extract roots = .ok part ∧ part.Suffices ts roots := by
  have hwf := h.reachable.wellFormed
  obtain ⟨part, hextract, -, hget⟩ := hwf.exists_extract hroots
  have hpart : part.Grown := h.extract hextract
  have hheld : ∀ root ∈ roots, part.contains root = true := by
    intro root hroot
    obtain ⟨d, hd⟩ := Option.isSome_iff_exists.1 (hroots root hroot)
    exact Option.isSome_iff_exists.2 ⟨d, (hget root d).2 ⟨.root hroot, hd⟩⟩
  refine ⟨part, hextract, hheld, hroots, fun root hroot => ?_⟩
  have hagree : ∀ sid d e, part.get? sid = some d → ts.get? sid = some e → d = e := by
    intro sid d e hd he
    exact Option.some.inj (((hget sid d).1 hd).2.symm.trans he)
  -- both systems describe the root, hence by the same codec
  obtain ⟨C, hC⟩ := hpart.reachable.wellFormed.exists_codecOf (hpart.allFounded root (hheld root hroot))
  obtain ⟨D, hD⟩ := hwf.exists_codecOf (h.allFounded root (hroots root hroot))
  rw [hC, hD, codecOf_unique hagree hC hD]

end TypeSystem

/-! ## What a schema names -/

namespace Schema

variable {type : Int}

/-- The types that a schema names are those of its metadata, of its global and of its structured
owned state. -/
theorem mem_types {sid : SemId} : sid ∈ schema.types ↔
    (∃ e ∈ schema.metaTypes.entries, e.2.type = sid) ∨
      (∃ e ∈ schema.globalTypes.entries, e.2.type = sid) ∨
      ∃ e ∈ schema.ownedTypes.entries, structured? e.2 = some sid := by
  simp only [types, mem_distinct, List.mem_append, List.mem_map, List.mem_filterMap,
    Table.mem_sorted, or_assoc]

theorem mem_types_of_meta {d : MetaDetails} (h : schema.metaTypes.get? type = some d) :
    d.type ∈ schema.types :=
  mem_types.2 (.inl ⟨_, Table.mem_entries.2 h, rfl⟩)

theorem mem_types_of_global {d : GlobalDetails} (h : schema.globalTypes.get? type = some d) :
    d.type ∈ schema.types :=
  mem_types.2 (.inr (.inl ⟨_, Table.mem_entries.2 h, rfl⟩))

theorem mem_types_of_owned {d : OwnedDetails} {sid : SemId}
    (h : schema.ownedTypes.get? type = some d) (hstate : d.state = .structured sid) :
    sid ∈ schema.types := by
  refine mem_types.2 (.inr (.inr ⟨_, Table.mem_entries.2 h, ?_⟩))
  rw [structured?, hstate]

/-- All types of a schema resolve in a system that holds them. -/
theorem unresolvedTypes_eq_nil (h : ∀ sid ∈ schema.types, ts.contains sid = true) :
    schema.unresolvedTypes ts = [] := by
  have hresolved : ∀ (path : String) {sid : SemId}, sid ∈ schema.types → unresolved ts path sid = [] :=
    fun path sid hsid => if_pos (h sid hsid)
  unfold unresolvedTypes
  rw [List.append_eq_nil_iff, List.append_eq_nil_iff, List.flatMap_eq_nil_iff,
    List.flatMap_eq_nil_iff, List.flatMap_eq_nil_iff]
  refine ⟨⟨fun e he => ?_, fun e he => ?_⟩, fun e he => ?_⟩
  · exact hresolved _ (mem_types.2 (.inl ⟨e, Table.mem_sorted.1 he, rfl⟩))
  · exact hresolved _ (mem_types.2 (.inr (.inl ⟨e, Table.mem_sorted.1 he, rfl⟩)))
  · dsimp only
    split
    · rename_i sid hsid
      exact hresolved _ (mem_types.2 (.inr (.inr ⟨e, Table.mem_sorted.1 he, hsid⟩)))
    · rfl

/-- The shape of an operation has no type ids. -/
theorem kind_of_mem_shapeViolations {path : String} {shape : OperationSchema} {e : StrictError}
    (he : e ∈ schema.shapeViolations path shape) : e.kind ≠ .unresolvedTypeReference := by
  have hbounds : ∀ {path what : String} {bounds : Table Int Occurrences} {declared : Int → Bool},
      e ∈ boundViolations path what bounds declared → e.kind ≠ .unresolvedTypeReference := by
    intro path what bounds declared he
    obtain ⟨x, -, he⟩ := List.mem_flatMap.1 he
    rcases List.mem_append.1 he with he | he
    · split at he
      · cases he
      · rw [List.mem_singleton.1 he, StrictError.of, StrictError.kind_within]
        nofun
    · split at he
      · rw [List.mem_singleton.1 he, StrictError.of, StrictError.kind_within]
        nofun
      · cases he
  unfold shapeViolations at he
  simp only [List.mem_append] at he
  rcases he with ((he | he) | he) | he
  · exact hbounds he
  · exact hbounds he
  · split at he
    · exact hbounds he
    · cases he
  · exact hbounds he

/-- The check of a schema against a system that holds its types finds no type id that does not
resolve. -/
theorem exists_validate (h : ∀ sid ∈ schema.types, ts.contains sid = true) :
    ∃ report, (schema.validate ts).Yields (.ok report) ∧
      ∀ e ∈ report.violations, e.kind ≠ .unresolvedTypeReference := by
  refine ⟨⟨schema.violations ts⟩, ?_, fun e he => ?_⟩
  · unfold validate
    dsimp only
    split
    · exact .andThen (.log _) (.pure _)
    · exact .pure _
  · have he : e ∈ schema.violations ts := he
    rw [violations, unresolvedTypes_eq_nil h, List.nil_append] at he
    rcases List.mem_append.1 he with he | he
    · exact kind_of_mem_shapeViolations he
    · obtain ⟨x, -, he⟩ := List.mem_flatMap.1 he
      exact kind_of_mem_shapeViolations he

end Schema

/-! ## Checks -/

namespace TypeSystem.Suffices

variable {sids : List SemId} {o : Operation} {shape : OperationSchema} {path : String}

/-- State values of a type for which a part suffices have the same violations. -/
theorem valueViolations (h : part.Suffices ts sids) {sid : SemId} (hsid : sid ∈ sids) (v : Value)
    (path : String) :
    StrictContract.valueViolations part sid v path = StrictContract.valueViolations ts sid v path := by
  rw [StrictContract.valueViolations, StrictContract.valueViolations, h.held sid hsid,
    h.whole sid hsid, h.described sid hsid]

variable (h : part.Suffices ts schema.types)
include h

theorem metadataViolations : o.metadataViolations ⟨schema, part, shape, path⟩ =
    o.metadataViolations ⟨schema, ts, shape, path⟩ := by
  unfold Operation.metadataViolations
  dsimp only
  congr 2
  funext x
  cases shape.metadata.get? x.1 with
  | none => rfl
  | some bound =>
    cases hmeta : schema.metaTypes.get? x.1 with
    | none => rfl
    | some d => exact h.valueViolations (Schema.mem_types_of_meta hmeta) _ _

theorem globalsViolations : o.globalsViolations ⟨schema, part, shape, path⟩ =
    o.globalsViolations ⟨schema, ts, shape, path⟩ := by
  unfold Operation.globalsViolations
  dsimp only
  congr 2
  funext x
  cases shape.globals.get? x.1 with
  | none => rfl
  | some bound =>
    cases hglobal : schema.globalTypes.get? x.1 with
    | none => rfl
    | some d =>
      dsimp only [Operation.globalViolations]
      congr 2
      funext y
      exact h.valueViolations (Schema.mem_types_of_global hglobal) _ _

theorem assignmentsViolations : o.assignmentsViolations ⟨schema, part, shape, path⟩ =
    o.assignmentsViolations ⟨schema, ts, shape, path⟩ := by
  unfold Operation.assignmentsViolations
  dsimp only
  congr 2
  funext x
  cases shape.assignments.get? x.1 with
  | none => rfl
  | some bound =>
    cases howned : schema.ownedTypes.get? x.1 with
    | none => rfl
    | some d =>
      dsimp only [Operation.typeViolations]
      congr 3
      funext y
      unfold Operation.assignmentViolations
      cases hstate : d.state with
      | structured sid =>
        dsimp only
        rw [h.valueViolations (Schema.mem_types_of_owned howned hstate)]
      | _ => rfl

/-- The check of an operation has the same outcome and the same events with types that suffice. -/
theorem validate (o : Operation) (path : String) :
    o.validate schema part path = o.validate schema ts path := by
  have hfields : ∀ shape, o.validateFields ⟨schema, part, shape, path⟩ =
      o.validateFields ⟨schema, ts, shape, path⟩ := by
    intro shape
    have hviolations : o.fieldViolations ⟨schema, part, shape, path⟩ =
        o.fieldViolations ⟨schema, ts, shape, path⟩ := by
      unfold Operation.fieldViolations
      rw [h.metadataViolations, h.globalsViolations, h.assignmentsViolations]
      rfl
    unfold Operation.validateFields
    rw [hviolations]
  cases o with
  | genesis g => exact hfields _
  | transition t =>
    unfold Operation.validate
    dsimp only
    congr 1
    funext shape
    cases shape with
    | none => rfl
    | some shape => exact hfields shape

end TypeSystem.Suffices

/-! ## Standard types -/

namespace StandardTypes

variable {st : StandardTypes}

/-- Merging compiled libraries keeps what is hereditary. -/
theorem mergeAll_eq_ok {C : TypeSystem → Prop} (hC : Hereditary C)
    {systems : List (String × SymbolicSystem)} {ts' : TypeSystem} (hts : C ts)
    (hsystems : ∀ e ∈ systems, C e.2.types) (h : mergeAll systems ts = (.ok (), ts')) : C ts' := by
  induction systems generalizing ts with
  | nil =>
    cases h
    exact hts
  | cons e systems ih =>
    rw [List.forall_mem_cons] at hsystems
    rw [mergeAll, List.forM, bind_apply] at h
    dsimp only at h
    rw [bind_apply] at h
    rcases hmerge : Growth.merge e.2.types ts with ⟨e' | added, ts₁⟩
    · rw [hmerge] at h
      cases h
    · rw [hmerge] at h
      exact ih (hC.merged hts hsystems.1 hmerge) hsystems.2 h

/-- Standard types have grown, whatever extends them. -/
theorem ensures_grown (extension : Option TypeLibrary) :
    Logged.Ensures (compile extension) fun st => st.types.Grown := by
  refine .bind (TypeLibrary.ensures_compileAll hereditary_grown) fun systems hsystems => ?_
  intro written st h
  dsimp only at h
  rcases hmerge : (mergeAll systems).run .empty with ⟨e | u, types⟩
  · rw [hmerge] at h
    cases h
  · rw [hmerge] at h
    cases h
    exact mergeAll_eq_ok hereditary_grown .empty hsystems hmerge

/-- A type that the standard types lack makes a missing key. -/
theorem exists_misuse_typesOf (h : st.types.WellFormed)
    (hmissing : ∃ sid ∈ schema.types, st.types.contains sid = false) :
    ∃ key, st.typesOf schema = misuse (.missingKey key) := by
  obtain ⟨sid, hextract⟩ := h.extract_of_missing hmissing
  unfold typesOf
  rw [hextract]
  exact ⟨_, rfl⟩

/-- The standard types that a schema refers to are missing a key exactly when the standard types lack
one of them. Otherwise they resolve every type of the schema, and every operation is checked with
them as with all standard types: with the same violations and the same events. -/
theorem typesOf_suffices :
    (∀ extension, Logged.Ensures (compile extension) fun st => st.types.Grown) ∧
    ∀ (st : StandardTypes) (schema : Schema), st.types.Grown →
      ((∃ key, st.typesOf schema = misuse (.missingKey key)) ↔
        ∃ sid ∈ schema.types, st.types.contains sid = false) ∧
      ((∀ sid ∈ schema.types, st.types.contains sid = true) →
        ∃ types, st.typesOf schema = .ok types ∧
          (∃ report, (schema.validate types).Yields (.ok report) ∧
            ∀ e ∈ report.violations, e.kind ≠ .unresolvedTypeReference) ∧
          ∀ (o : Operation) (path : String),
            o.validate schema types path = o.validate schema st.types path) := by
  refine ⟨ensures_grown, fun st schema hgrown => ?_⟩
  have hholds : (∀ sid ∈ schema.types, st.types.contains sid = true) →
      ∃ types, st.typesOf schema = .ok types ∧ types.Suffices st.types schema.types := by
    intro hall
    obtain ⟨types, hextract, hsuffices⟩ := hgrown.exists_suffices hall
    refine ⟨types, ?_, hsuffices⟩
    unfold typesOf
    rw [hextract]
  constructor
  · constructor
    · rintro ⟨key, hkey⟩
      by_contra hnone
      push Not at hnone
      obtain ⟨types, htypes, -⟩ := hholds fun sid hsid =>
        Bool.not_eq_false _ ▸ hnone sid hsid
      rw [htypes] at hkey
      cases hkey
    · exact exists_misuse_typesOf hgrown.reachable.wellFormed
  · intro hall
    obtain ⟨types, htypes, hsuffices⟩ := hholds hall
    exact ⟨types, htypes, Schema.exists_validate hsuffices.held, hsuffices.validate⟩

/-- A schema that declares one type of metadata, of the given type. -/
def noting (sid : SemId) : Schema where
  name := .text "Noting"
  metaTypes := ⟨[(0, ⟨sid, .text "note"⟩)], by simp⟩
  globalTypes := .empty
  ownedTypes := .empty
  genesis := ⟨.empty, .empty, none, .empty, none⟩
  transitions := .empty

theorem mem_types_noting {sid ty : SemId} : ty ∈ (noting sid).types ↔ ty = sid := by
  simp [Schema.mem_types, noting, Table.empty, eq_comm]

/-- Of standard types with lists of truth values and one more definition, the closure of the lists
suffices for a schema that notes one; where there are no types it misses them. -/
theorem typesOf_suffices_list :
    (∃ (st : StandardTypes) (sid : SemId) (ts types : TypeSystem),
      (Codec.list .bool .tiny none).derive .empty = (.ok sid, ts) ∧
        st.types = (Growth.insert TypeDef.unit.toDraft ts).2 ∧ st.types.Grown ∧
        st.typesOf (noting sid) = .ok types ∧
        (∀ x, types.contains x = true ↔ st.types.Reached [sid] x) ∧
        ∀ (o : Operation) (path : String),
          o.validate (noting sid) types path = o.validate (noting sid) st.types path) ∧
    ∃ (st : StandardTypes) (sid : SemId) (key : String), st.types.Grown ∧
      st.typesOf (noting sid) = misuse (.missingKey key) := by
  constructor
  · obtain ⟨sid, ts, hderive, -⟩ := exists_derive_list derive_bool_empty (by decide) .tiny none
    have hgrown : Grown ((Codec.list .bool .tiny none).derive .empty).2 := .derive _ .empty
    rw [hderive] at hgrown
    let all := (Growth.insert TypeDef.unit.toDraft ts).2
    have hall : all.Grown := .insert _ hgrown
    have hextends : ts.Extends all := (Growth.onlyInserts_insert TypeDef.unit.toDraft ts).isExtension
    have hheld : ∀ x ∈ (noting sid).types, all.contains x = true := fun x hx => by
      obtain rfl := mem_types_noting.1 hx
      exact hextends.contains (contains_of_derive hderive)
    obtain ⟨types, hok, -, hsame⟩ := (typesOf_suffices.2 ⟨[], [], all⟩ (noting sid) hall).2 hheld
    refine ⟨⟨[], [], all⟩, sid, ts, types, hderive, rfl, hall, hok, fun x => ?_, hsame⟩
    -- the standard types of the schema are those that are extracted for its only type
    have hroots : ∀ root ∈ [sid], all.contains root = true := fun root hroot =>
      hheld root (mem_types_noting.2 (List.mem_singleton.1 hroot))
    obtain ⟨part, hextract, -, hget⟩ := hall.reachable.wellFormed.exists_extract hroots
    have htypes : (noting sid).types = [sid] := by
      simp [Schema.types, noting, Table.empty, Table.sorted, distinct]
    rw [StandardTypes.typesOf, htypes, hextract] at hok
    obtain rfl := Except.ok.inj hok
    constructor
    · intro hx
      obtain ⟨d, hd⟩ := Option.isSome_iff_exists.1 hx
      exact ((hget x d).1 hd).1
    · intro hreached
      obtain ⟨d, hd⟩ := Option.isSome_iff_exists.1
        (hall.reachable.wellFormed.contains_of_reached hroots hreached)
      exact Option.isSome_iff_exists.2 ⟨d, (hget x d).2 ⟨hreached, hd⟩⟩
  · let sid : SemId := Id.ofContent .sem boolOctets
    obtain ⟨key, hkey⟩ := (typesOf_suffices.2 ⟨[], [], .empty⟩ (noting sid) .empty).1.2
      ⟨sid, mem_types_noting.2 rfl, rfl⟩
    exact ⟨_, _, key, .empty, hkey⟩

end StandardTypes

end StrictContract
