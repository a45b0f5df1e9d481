import StrictContract.Proofs.Contract.Keeping

/-! # Joining — what a stash holds after any family of consignments

The records of a family of consignments show **views**: which schemas, geneses, bundles, witnesses,
libraries and definitions were seen under which ids. A stash **joins** views when every id that was
seen leads to a record that was seen under it, every bundle reveals what some view of it reveals, and
every witness is a full transaction if some view of it is. If no two different records share an id,
all records can be kept, and a stash that joins their views is determined up to the order of mappings,
so neither the order nor the repetition of consignments matters. -/

namespace StrictContract

/-! ## Collections -/

section

variable {κ α : Type} {get get' : κ → Option α} {P Q : κ → α → Prop}

/-- A lookup **collects** what a predicate admits when every value that is found is admitted under its
key, and every key with an admitted value has one. -/
structure Collects (get : κ → Option α) (P : κ → α → Prop) : Prop where
  admitted : ∀ k a, get k = some a → P k a
  kept : ∀ k a, P k a → ∃ b, get k = some b

namespace Collects

/-- What collects the same values finds related ones, if all values under a key are related. -/
theorem rel {R : α → α → Prop} (h : Collects get P) (h' : Collects get' P)
    (hR : ∀ k a b, P k a → P k b → R a b) (k : κ) : Option.Rel R (get k) (get' k) := by
  cases ha : get k with
  | none =>
    cases hb : get' k with
    | none => exact .none
    | some b =>
      obtain ⟨a, ha'⟩ := h.kept k b (h'.admitted k b hb)
      rw [ha] at ha'
      cases ha'
  | some a =>
    obtain ⟨b, hb⟩ := h'.kept k a (h.admitted k a ha)
    rw [hb]
    exact .some (hR k a b (h.admitted k a ha) (h'.admitted k b hb))

/-- A value that is set is collected, too. -/
theorem put [DecidableEq κ] {t : Table κ α} (h : Collects t.get? P) {k : κ} {a : α} (ha : Q k a)
    (hQ : ∀ i b, Q i b → P i b ∨ i = k) (hP : ∀ i b, P i b → Q i b) : Collects (t.put k a).get? Q where
  admitted := by
    intro i b hb
    rw [Table.get?_put] at hb
    split at hb
    · rename_i hi
      cases hb
      exact hi ▸ ha
    · exact hP i b (h.admitted i b hb)
  kept := by
    intro i b hb
    rw [Table.get?_put]
    split
    · exact ⟨a, rfl⟩
    · rename_i hi
      exact h.kept i b ((hQ i b hb).resolve_right hi)

/-- A value that is set under a new key is collected, too. -/
theorem putNew [DecidableEq κ] {t : Table κ α} (h : Collects t.get? P) {k : κ} {a : α} (ha : Q k a)
    (hQ : ∀ i b, Q i b → P i b ∨ i = k) (hP : ∀ i b, P i b → Q i b) :
    Collects (t.putNew k a).get? Q := by
  unfold Table.putNew
  split
  · rename_i hcontains
    obtain ⟨b, hb⟩ := Option.isSome_iff_exists.1 hcontains
    refine ⟨fun i c hc => hP i c (h.admitted i c hc), fun i c hc => ?_⟩
    rcases hQ i c hc with hc | rfl
    · exact h.kept i c hc
    · exact ⟨b, hb⟩
  · exact h.put ha hQ hP

end Collects

end

/-! ## Views -/

/-- The **views** of records: what was seen under which id. -/
structure Views where
  schema : SchemaId → Schema → Prop
  genesis : ContractId → Genesis → Prop
  bundle : BundleId → Bundle → Prop
  witness : Txid → Witness → Prop
  library : LibId → Octets → Prop
  type : SemId → TypeDef → Prop

namespace Record

/-- What some records show. -/
def views (rs : List Record) : Views where
  schema := fun id x => .schema x ∈ rs ∧ x.schemaId = .ok id
  genesis := fun id x => .genesis x ∈ rs ∧ x.contractId = .ok id
  bundle := fun id b => .bundle b ∈ rs ∧ b.bundleId = .ok id
  witness := fun id w => .witness w ∈ rs ∧ w.witnessId = id
  library := fun id code => .library code ∈ rs ∧ libraryId code = id
  type := fun sid d => ∃ types, .types types ∈ rs ∧ (sid, d) ∈ types.entries

end Record

/-- The views of records with one more record. -/
def Views.add (V : Views) : Record → Views
  | .schema x => { V with schema := fun id y => V.schema id y ∨ y = x ∧ y.schemaId = .ok id }
  | .types x => { V with type := fun sid d => V.type sid d ∨ (sid, d) ∈ x.entries }
  | .genesis x => { V with genesis := fun id y => V.genesis id y ∨ y = x ∧ y.contractId = .ok id }
  | .bundle x => { V with bundle := fun id y => V.bundle id y ∨ y = x ∧ y.bundleId = .ok id }
  | .witness x => { V with witness := fun id y => V.witness id y ∨ y = x ∧ y.witnessId = id }
  | .library x => { V with library := fun id y => V.library id y ∨ y = x ∧ libraryId y = id }

namespace Record

/-- One more record shows what it is. -/
theorem views_concat (rs : List Record) (r : Record) : views (rs ++ [r]) = (views rs).add r := by
  cases r <;> simp [views, Views.add, or_and_right, exists_or]

/-- A record is **valid** when it has an id and, if it is a bundle, its transitions are carried under
their own ids. -/
def Valid : Record → Prop
  | .schema x => ∃ id, x.schemaId = .ok id
  | .genesis x => ∃ id, x.contractId = .ok id
  | .bundle b => (∃ id, b.bundleId = .ok id) ∧ ∀ e ∈ b.known.entries, e.2.opId = .ok e.1
  | _ => True

end Record

/-- Views are **coherent** when no two different records share an id. The record of a bundle id is the
input map, of which the id is the commitment. -/
structure Views.Coherent (V : Views) : Prop where
  schemata : ∀ id x y, V.schema id x → V.schema id y → x.toValue.Alike y.toValue
  geneses : ∀ id x y, V.genesis id x → V.genesis id y → x.toValue.Alike y.toValue
  inputMaps : ∀ id b c, V.bundle id b → V.bundle id c →
    Bundle.inputMapCodec.write b.inputMapValue = Bundle.inputMapCodec.write c.inputMapValue
  transitions : ∀ i b j c, V.bundle i b → V.bundle j c → ∀ x ∈ b.known.values, ∀ y ∈ c.known.values,
    x.opId = y.opId → x.toValue.Alike y.toValue
  transactions : ∀ id raw raw', V.witness id (.tx raw) → V.witness id (.tx raw') → raw = raw'
  libraries : ∀ id x y, V.library id x → V.library id y → x = y
  types : ∀ sid x y, V.type sid x → V.type sid y → x = y

namespace Stash

variable {s t : Stash} {V : Views}

/-- A stash that **joins** views. -/
structure Joins (s : Stash) (V : Views) : Prop where
  schemata : Collects s.schemata.get? V.schema
  geneses : Collects s.geneses.get? V.genesis
  libraries : Collects s.libraries.get? V.library
  types : Collects s.types.get? V.type
  /-- No definition is held twice. -/
  nodup : (s.types.entries.map Prod.fst).Nodup
  /-- A bundle has the input map of a view and reveals just the transitions that its views reveal. -/
  bundles : ∀ id b, s.bundles.get? id = some b → (∃ c, V.bundle id c ∧ b.inputMap = c.inputMap) ∧
    Collects b.known.get? fun opId x => ∃ c, V.bundle id c ∧ c.known.get? opId = some x
  bundled : ∀ id c, V.bundle id c → ∃ b, s.bundles.get? id = some b
  witnesses : Collects s.witnesses.get? V.witness
  /-- A witness is a full transaction when one of its views is. -/
  full : ∀ id w, s.witnesses.get? id = some w →
    ((∃ raw, w.raw? = some raw) ↔ ∃ c raw, V.witness id c ∧ c.raw? = some raw)

/-- The stash without records has seen nothing. -/
theorem joins_empty : empty.Joins (Record.views []) where
  schemata := ⟨nofun, by simp [Record.views]⟩
  geneses := ⟨nofun, by simp [Record.views]⟩
  libraries := ⟨nofun, by simp [Record.views]⟩
  types := ⟨nofun, by simp [Record.views]⟩
  nodup := .nil
  bundles := nofun
  bundled := by simp [Record.views]
  witnesses := ⟨nofun, by simp [Record.views]⟩
  full := nofun

/-! ## Keeping one record -/

namespace Joins

/-- Keeping a schema that has an id shows it. -/
theorem keep_schema (h : s.Joins V) {x : Schema} {id : SchemaId} (hid : x.schemaId = .ok id) :
    ∃ t, s.keep (.schema x) = .ok t ∧ t.Joins (V.add (.schema x)) := by
  refine ⟨_, map_eq_ok.2 ⟨_, replaceSchema_eq_ok.2 ⟨id, hid, rfl, rfl⟩, rfl⟩, { h with schemata := ?_ }⟩
  refine h.schemata.putNew (.inr ⟨rfl, hid⟩) ?_ fun _ _ => .inl
  rintro i y (hy | ⟨rfl, hy⟩)
  · exact .inl hy
  · exact .inr (Except.ok.inj (hy.symm.trans hid))

/-- Keeping a genesis that has an id shows it. -/
theorem keep_genesis (h : s.Joins V) {x : Genesis} {id : ContractId} (hid : x.contractId = .ok id) :
    ∃ t, s.keep (.genesis x) = .ok t ∧ t.Joins (V.add (.genesis x)) := by
  refine ⟨_, map_eq_ok.2 ⟨_, replaceGenesis_eq_ok.2 ⟨id, hid, rfl, rfl⟩, rfl⟩, { h with geneses := ?_ }⟩
  refine h.geneses.put (.inr ⟨rfl, hid⟩) ?_ fun _ _ => .inl
  rintro i y (hy | ⟨rfl, hy⟩)
  · exact .inl hy
  · exact .inr (Except.ok.inj (hy.symm.trans hid))

/-- Keeping a script library shows it. -/
theorem keep_library (h : s.Joins V) (code : Octets) :
    ∃ t, s.keep (.library code) = .ok t ∧ t.Joins (V.add (.library code)) := by
  refine ⟨_, rfl, { h with libraries := ?_ }⟩
  refine h.libraries.put (.inr ⟨rfl, rfl⟩) ?_ fun _ _ => .inl
  rintro i y (hy | ⟨rfl, hy⟩)
  · exact .inl hy
  · exact .inr hy.symm

/-- Keeping types shows them, if all ids that were seen do not exceed the capacity. -/
theorem keep_types (h : s.Joins V) {x : TypeSystem} {ids : List SemId}
    (hids : ids.length ≤ TypeSystem.capacity)
    (hseen : ∀ sid d, (V.add (.types x)).type sid d → sid ∈ ids) :
    ∃ t, s.keep (.types x) = .ok t ∧ t.Joins (V.add (.types x)) := by
  have hheld : ∀ e ∈ s.types.entries, V.type e.1 e.2 := fun e he =>
    h.types.admitted e.1 e.2 ((lookup_eq_some_iff_mem h.nodup).2 he)
  -- what is held was seen, so there is room for each id that is not held yet
  obtain ⟨n, merged, hmerged⟩ := TypeSystem.exists_mergeEntries hids
    (fun e he => hseen e.1 e.2 (.inr he)) 0 h.nodup fun e he => hseen e.1 e.2 (.inl (hheld e he))
  obtain ⟨hextends, hrest, hmem, hnodup, -⟩ := TypeSystem.mergeEntries_eq_ok hmerged
  refine ⟨_, consumeTypes_eq_ok.2 ⟨n, merged, hmerged, rfl⟩,
    { h with types := ⟨?_, ?_⟩, nodup := hnodup h.nodup }⟩
  · intro sid d hd
    exact (hmem (sid, d) (mem_of_lookup hd)).imp_left (hheld (sid, d))
  · rintro sid d (hd | hd)
    · obtain ⟨d', hd'⟩ := h.types.kept sid d hd
      exact ⟨d', hextends.get?_eq_some hd'⟩
    · exact Option.isSome_iff_exists.1 (hrest (sid, d) hd)

/-- What becomes of the view of a witness that is known, if any, when another one is kept. -/
theorem exists_mergedWitness (h : s.Joins V) {x : Witness}
    (hnamed : ∀ w, V.witness x.witnessId w → w.witnessId = x.witnessId) : ∃ merged,
      Absorbed Witness.merge (s.witnesses.get? x.witnessId) x merged ∧
      (V.witness x.witnessId merged ∨ merged = x) ∧
      ((∃ raw, merged.raw? = some raw) ↔
        (∃ c raw, V.witness x.witnessId c ∧ c.raw? = some raw) ∨ ∃ raw, x.raw? = some raw) := by
  cases hknown : s.witnesses.get? x.witnessId with
  | none =>
    refine ⟨x, rfl, .inr rfl, .inr, ?_⟩
    rintro (⟨c, raw, hc, -⟩ | hraw)
    · -- a view that was seen would have left a witness
      obtain ⟨w, hw⟩ := h.witnesses.kept _ c hc
      rw [hknown] at hw
      cases hw
    · exact hraw
  | some known =>
    have hview := h.witnesses.admitted _ known hknown
    have hfull := h.full _ known hknown
    refine ⟨_, Witness.merge_eq_ok.2 ⟨hnamed known hview, rfl⟩, ?_, ?_⟩
    · split
      · exact .inr rfl
      · exact .inl hview
    · rw [← hfull]
      cases hold : known.raw? <;> cases hnew : x.raw? <;> simp [hold, hnew]

/-- Keeping a witness shows it; the full transaction is there from then on if the witness has it. -/
theorem keep_witness (h : s.Joins V) {x : Witness}
    (hnamed : ∀ w, V.witness x.witnessId w → w.witnessId = x.witnessId) :
    ∃ t, s.keep (.witness x) = .ok t ∧ t.Joins (V.add (.witness x)) := by
  obtain ⟨merged, hmerged, hview, hraw⟩ := h.exists_mergedWitness hnamed
  refine ⟨_, map_eq_ok.2 ⟨_, replaceWitness_eq_ok.2 ⟨rfl, merged, hmerged, rfl⟩, rfl⟩,
    { h with witnesses := ?_, full := ?_ }⟩
  · refine h.witnesses.put (hview.imp_right fun heq => ⟨heq, by rw [heq]⟩) ?_ fun _ _ => .inl
    rintro i y (hy | ⟨rfl, hy⟩)
    · exact .inl hy
    · exact .inr hy.symm
  · intro i w hw
    rw [Table.get?_put] at hw
    have hviews : (∃ c raw, (V.add (.witness x)).witness i c ∧ c.raw? = some raw) ↔
        (∃ c raw, V.witness i c ∧ c.raw? = some raw) ∨
          x.witnessId = i ∧ ∃ raw, x.raw? = some raw := by
      simp [Views.add, or_and_right, exists_or, and_assoc]
    rw [hviews]
    by_cases hi : i = x.witnessId
    · subst hi
      rw [if_pos rfl] at hw
      cases hw
      rw [hraw, and_iff_right rfl]
    · rw [if_neg hi] at hw
      rw [h.full i w hw, or_iff_left fun hx => hi hx.1.symm]

/-- What becomes of the view of a bundle that is known, if any, when another one is kept. -/
theorem exists_mergedBundle (h : s.Joins V) {x : Bundle} {id : BundleId} (hid : x.bundleId = .ok id)
    (hmaps : ∀ c, V.bundle id c → Bundle.inputMapCodec.write x.inputMapValue =
      Bundle.inputMapCodec.write c.inputMapValue) : ∃ merged,
      Absorbed Bundle.merge (s.bundles.get? id) x merged ∧
      (∃ c, (V.bundle id c ∨ c = x) ∧ merged.inputMap = c.inputMap) ∧
      Collects merged.known.get? fun opId y =>
        ∃ c, (V.bundle id c ∨ c = x) ∧ c.known.get? opId = some y := by
  cases hknown : s.bundles.get? id with
  | none =>
    refine ⟨x, rfl, ⟨x, .inr rfl, rfl⟩, fun opId y hy => ⟨x, .inr rfl, hy⟩, ?_⟩
    rintro opId y ⟨c, hc | rfl, hy⟩
    · obtain ⟨b, hb⟩ := h.bundled id c hc
      rw [hknown] at hb
      cases hb
    · exact ⟨y, hy⟩
  | some known =>
    obtain ⟨⟨c, hc, hmap⟩, hreveals⟩ := h.bundles id known hknown
    obtain ⟨p, hp, -⟩ := bind_eq_ok.1 hid
    -- the known input map is that of a view with the same id, so it commits to the same bytes
    have hsame : known.inputMap.same x.inputMap = true := by
      rw [hmap]
      exact Table.same_of_perm (Bundle.perm_inputMap ((hmaps c hc).symm.trans hp) hp)
    refine ⟨_, Bundle.merge_eq_ok.2 ⟨hsame, rfl⟩, ⟨c, .inl hc, hmap⟩, ?_, ?_⟩
    · intro opId y hy
      rw [Table.get?_foldl_putNew, Option.or_eq_some_iff] at hy
      rcases hy with hy | ⟨-, hy⟩
      · obtain ⟨d, hd, hy⟩ := hreveals.admitted opId y hy
        exact ⟨d, .inl hd, hy⟩
      · exact ⟨x, .inr rfl, hy⟩
    · rintro opId y ⟨d, hd | rfl, hy⟩
      · obtain ⟨z, hz⟩ := hreveals.kept opId y ⟨d, hd, hy⟩
        exact ⟨z, by rw [Table.get?_foldl_putNew, hz, Option.some_or]⟩
      · -- a transition that is revealed already stays the one that was revealed first
        rw [Table.get?_foldl_putNew]
        cases known.known.get? opId with
        | none => exact ⟨y, hy⟩
        | some z => exact ⟨z, rfl⟩

/-- Keeping a bundle reveals its transitions, if it commits to the same input map as the views of it. -/
theorem keep_bundle (h : s.Joins V) {x : Bundle} {id : BundleId} (hid : x.bundleId = .ok id)
    (hmaps : ∀ c, V.bundle id c → Bundle.inputMapCodec.write x.inputMapValue =
      Bundle.inputMapCodec.write c.inputMapValue) :
    ∃ t, s.keep (.bundle x) = .ok t ∧ t.Joins (V.add (.bundle x)) := by
  obtain ⟨merged, hmerged, hmap, hreveals⟩ := h.exists_mergedBundle hid hmaps
  have hviews : ∀ i c, (V.add (.bundle x)).bundle i c ↔ V.bundle i c ∨ c = x ∧ i = id := by
    intro i c
    refine or_congr_right (and_congr_right fun hc => ?_)
    rw [hc, hid, Except.ok.injEq, eq_comm]
  refine ⟨_, map_eq_ok.2 ⟨_, replaceBundle_eq_ok.2 ⟨id, hid, rfl, merged, hmerged, rfl⟩, rfl⟩,
    { h with bundles := ?_, bundled := ?_ }⟩
  · intro i b hb
    rw [Table.get?_put] at hb
    by_cases hi : i = id
    · subst hi
      rw [if_pos rfl] at hb
      cases hb
      simp only [hviews, and_true]
      exact ⟨hmap, hreveals⟩
    · rw [if_neg hi] at hb
      simp only [hviews, hi, and_false, or_false]
      exact h.bundles i b hb
  · intro i c hc
    rw [Table.get?_put]
    split
    · exact ⟨merged, rfl⟩
    · rename_i hi
      exact h.bundled i c (((hviews i c).1 hc).resolve_right fun hx => hi hx.2)

end Joins

end Stash

/-! ## Keeping all records -/

namespace Record

/-- Records **fit** when all ids of definitions that they show do not exceed the capacity. -/
def Fit (rs : List Record) : Prop :=
  ∃ ids : List SemId, ids.length ≤ TypeSystem.capacity ∧ ∀ sid d, (views rs).type sid d → sid ∈ ids

end Record

namespace Stash

variable {s t : Stash}

/-- A valid record can be kept after others that it is coherent with. -/
theorem Joins.keep {seen all : List Record} (h : s.Joins (Record.views seen)) {r : Record}
    (hr : r.Valid) (hall : ∀ x ∈ seen ++ [r], x ∈ all) (hcoherent : (Record.views all).Coherent)
    (hfit : Record.Fit all) :
    ∃ t, s.keep r = .ok t ∧ t.Joins (Record.views (seen ++ [r])) := by
  -- coherence is asked of all records at once, of which the ones that were seen are a part
  have hseen : ∀ {x}, x ∈ seen → x ∈ all := fun hx => hall _ (List.mem_append_left _ hx)
  have hlast : r ∈ all := hall r (by simp)
  rw [Record.views_concat]
  cases r with
  | schema x =>
    obtain ⟨id, hid⟩ := hr
    exact h.keep_schema hid
  | types x =>
    obtain ⟨ids, hids, hshown⟩ := hfit
    refine h.keep_types hids fun sid d hd => hshown sid d ?_
    rcases hd with ⟨types, hmem, hd⟩ | hd
    · exact ⟨types, hseen hmem, hd⟩
    · exact ⟨x, hlast, hd⟩
  | genesis x =>
    obtain ⟨id, hid⟩ := hr
    exact h.keep_genesis hid
  | bundle x =>
    obtain ⟨⟨id, hid⟩, -⟩ := hr
    refine h.keep_bundle hid fun c hc => ?_
    exact hcoherent.inputMaps id x c ⟨hlast, hid⟩ ⟨hseen hc.1, hc.2⟩
  | witness x => exact h.keep_witness fun w hw => hw.2
  | library code => exact h.keep_library code

/-- Valid records that are coherent with each other can be kept one by one. -/
theorem Joins.foldlM_keep {seen rs all : List Record} (h : s.Joins (Record.views seen))
    (hrs : ∀ r ∈ rs, r.Valid) (hall : ∀ x ∈ seen ++ rs, x ∈ all)
    (hcoherent : (Record.views all).Coherent) (hfit : Record.Fit all) :
    ∃ t, rs.foldlM Stash.keep s = .ok t ∧ t.Joins (Record.views (seen ++ rs)) := by
  induction rs generalizing s seen with
  | nil => exact ⟨s, rfl, by rwa [List.append_nil]⟩
  | cons r rs ih =>
    rw [List.forall_mem_cons] at hrs
    rw [List.append_cons] at hall ⊢
    obtain ⟨t, ht, hjoins⟩ := h.keep hrs.1
      (fun x hx => hall x (List.mem_append_left _ hx)) hcoherent hfit
    obtain ⟨u, hu, hjoins'⟩ := ih hjoins hrs.2 hall
    refine ⟨u, ?_, hjoins'⟩
    rw [List.foldlM_cons]
    exact bind_eq_ok.2 ⟨t, ht, hu⟩

/-! ## Stashes that join the same views -/

/-- Two stashes are the **same** when they have alike records under the same ids. -/
structure Same (s t : Stash) : Prop where
  schemata : ∀ id, Option.Rel (fun x y => x.toValue.Alike y.toValue)
    (s.schemata.get? id) (t.schemata.get? id)
  geneses : ∀ id, Option.Rel (fun x y => x.toValue.Alike y.toValue)
    (s.geneses.get? id) (t.geneses.get? id)
  bundles : ∀ id, Option.Rel (fun x y => x.toValue.Alike y.toValue)
    (s.bundles.get? id) (t.bundles.get? id)
  witnesses : ∀ id, s.witnesses.get? id = t.witnesses.get? id
  libraries : ∀ id, s.libraries.get? id = t.libraries.get? id
  types : s.types.entries.Perm t.types.entries

/-- Related values that are equal. -/
theorem eq_of_rel_eq {α : Type} {a b : Option α} (h : Option.Rel Eq a b) : a = b := by
  cases h with
  | none => rfl
  | some h => rw [h]

namespace Joins

variable {rs : List Record}

/-- Bundles under one id that reveal what their views reveal are alike. -/
theorem alike_bundles (hrs : ∀ r ∈ rs, r.Valid) (hcoherent : (Record.views rs).Coherent)
    (hs : s.Joins (Record.views rs)) (ht : t.Joins (Record.views rs)) (id : BundleId) :
    Option.Rel (fun x y => x.toValue.Alike y.toValue) (s.bundles.get? id) (t.bundles.get? id) := by
  cases hb : s.bundles.get? id with
  | none =>
    cases hc : t.bundles.get? id with
    | none => exact .none
    | some c =>
      obtain ⟨⟨d, hd, -⟩, -⟩ := ht.bundles id c hc
      obtain ⟨b, hb'⟩ := hs.bundled id d hd
      rw [hb] at hb'
      cases hb'
  | some b =>
    obtain ⟨⟨d, hd, hmap⟩, hreveals⟩ := hs.bundles id b hb
    obtain ⟨c, hc⟩ := ht.bundled id d hd
    obtain ⟨⟨e, he, hmap'⟩, hreveals'⟩ := ht.bundles id c hc
    rw [hc]
    refine .some ?_
    obtain ⟨p, hp, -⟩ := bind_eq_ok.1 hd.2
    have hperm : b.inputMap.entries.Perm c.inputMap.entries := by
      rw [hmap, hmap']
      exact Bundle.perm_inputMap hp ((hcoherent.inputMaps id d e hd he).symm.trans hp)
    have hknown := Table.alike_mapping (f := .id .operation) (g := Transition.toValue) <|
      hreveals.rel hreveals' (R := fun x y => x.toValue.Alike y.toValue) <| by
        rintro opId x y ⟨v, hv, hx⟩ ⟨w, hw, hy⟩
        have hx := Table.mem_entries.2 hx
        have hy := Table.mem_entries.2 hy
        -- each view carries its transitions under their own ids
        refine hcoherent.transitions id v id w hv hw x (List.mem_map_of_mem hx) y
          (List.mem_map_of_mem hy) ?_
        exact ((hrs _ hv.1).2 _ hx).trans ((hrs _ hw.1).2 _ hy).symm
    rw [Bundle.toValue, Bundle.toValue, Value.Alike.record_iff (by decide)]
    exact ⟨rfl, rfl, .map_of_perm (hperm.map _), rfl, hknown, trivial⟩

/-- Witnesses under one id are the same, since both are full transactions if some view is. -/
theorem witnesses_eq (hcoherent : (Record.views rs).Coherent) (hs : s.Joins (Record.views rs))
    (ht : t.Joins (Record.views rs)) (id : Txid) : s.witnesses.get? id = t.witnesses.get? id := by
  cases hw : s.witnesses.get? id with
  | none =>
    cases hx : t.witnesses.get? id with
    | none => rfl
    | some x =>
      obtain ⟨w, hw'⟩ := hs.witnesses.kept id x (ht.witnesses.admitted id x hx)
      rw [hw] at hw'
      cases hw'
  | some w =>
    obtain ⟨x, hx⟩ := ht.witnesses.kept id w (hs.witnesses.admitted id w hw)
    have hwview := hs.witnesses.admitted id w hw
    have hxview := ht.witnesses.admitted id x hx
    have hfull := (hs.full id w hw).trans (ht.full id x hx).symm
    rw [hx, Option.some.injEq]
    cases w with
    | txid i =>
      cases x with
      | txid j => exact congrArg Witness.txid (hwview.2.trans hxview.2.symm)
      | tx raw =>
        obtain ⟨_, hraw⟩ := hfull.2 ⟨raw, rfl⟩
        cases hraw
    | tx raw =>
      cases x with
      | txid j =>
        obtain ⟨_, hraw⟩ := hfull.1 ⟨raw, rfl⟩
        cases hraw
      | tx raw' => exact congrArg Witness.tx (hcoherent.transactions id raw raw' hwview hxview)

/-- Stashes that join the views of the same records are the same. -/
theorem same (hrs : ∀ r ∈ rs, r.Valid) (hcoherent : (Record.views rs).Coherent)
    (hs : s.Joins (Record.views rs)) (ht : t.Joins (Record.views rs)) : s.Same t where
  schemata := hs.schemata.rel ht.schemata hcoherent.schemata
  geneses := hs.geneses.rel ht.geneses hcoherent.geneses
  bundles := alike_bundles hrs hcoherent hs ht
  witnesses := witnesses_eq hcoherent hs ht
  libraries := fun id => eq_of_rel_eq (hs.libraries.rel ht.libraries hcoherent.libraries id)
  types := by
    rw [List.perm_ext_iff_of_nodup (nodup_of_keys hs.nodup) (nodup_of_keys ht.nodup)]
    intro e
    rw [← lookup_eq_some_iff_mem hs.nodup, ← lookup_eq_some_iff_mem ht.nodup]
    have hsame : s.types.get? e.1 = t.types.get? e.1 :=
      eq_of_rel_eq (hs.types.rel ht.types hcoherent.types e.1)
    exact iff_of_eq (congrArg (· = some e.2) hsame)

end Joins

end Stash

/-! ## Consuming consignments -/

namespace ValidConsignment

/-- The records of an accepted consignment are valid. -/
theorem Accepted.valid {v : ValidConsignment} (h : v.Accepted) : ∀ r ∈ v.records, r.Valid := by
  obtain ⟨hschema, hgenesis, hbundles, -⟩ := Consignment.encodable_iff.1 h.consistent.encodable
  intro r hr
  rw [records, List.mem_append, List.mem_append, List.mem_flatMap, List.mem_map] at hr
  rcases hr with (hr | ⟨w, hw, hr⟩) | ⟨code, -, rfl⟩
  · simp only [List.mem_cons, List.not_mem_nil, or_false] at hr
    rcases hr with rfl | rfl | rfl
    · exact hschema
    · exact trivial
    · exact hgenesis
  · simp only [List.mem_cons, List.not_mem_nil, or_false] at hr
    rcases hr with rfl | rfl
    · exact ⟨(hbundles w hw).1, fun e he => (h.consistent.links w hw e he).carried⟩
    · exact trivial
  · exact trivial

/-- The **views** of consignments: what their records show. -/
def views (vs : List ValidConsignment) : Views := Record.views (vs.flatMap records)

/-- The ids of all definitions of the consignments, each once. -/
def typeIds (vs : List ValidConsignment) : List SemId :=
  distinct (vs.flatMap fun v => v.consignment.types.entries.map Prod.fst)

/-- The records of consignments fit when their ids of definitions do. -/
theorem fit_records {vs : List ValidConsignment}
    (h : (typeIds vs).length ≤ TypeSystem.capacity) : Record.Fit (vs.flatMap records) := by
  refine ⟨typeIds vs, h, ?_⟩
  rintro sid d ⟨types, hmem, hd⟩
  obtain ⟨v, hv, hmem⟩ := List.mem_flatMap.1 hmem
  obtain rfl : types = v.consignment.types := by
    simpa [records] using hmem
  exact mem_distinct.2 (List.mem_flatMap.2 ⟨v, hv, List.mem_map_of_mem hd⟩)

end ValidConsignment

namespace Stash

open ValidConsignment

/-- Consumes consignments one after another. -/
def consumeAll (s : Stash) (vs : List ValidConsignment) : Except Failure Stash :=
  vs.foldlM (fun s v => Prod.snd <$> s.consume v) s

/-- Consignments are consumed by keeping all their records one by one. -/
theorem consumeAll_eq (s : Stash) (vs : List ValidConsignment) :
    s.consumeAll vs = (vs.flatMap records).foldlM keep s := by
  induction vs generalizing s with
  | nil => rfl
  | cons v vs ih =>
    rw [consumeAll, List.foldlM_cons, List.flatMap_cons, List.foldlM_append, consume_eq]
    exact congrArg _ (funext ih)

/-- A stash is the **join** of what it has consumed. Accepted consignments of which no two different
records share an id, and of which the types fit, can be consumed in any order and with any repetition;
the stash then joins their views, and it is the same for each order and repetition. Consuming
a consignment never gives up anything, and keeping a record tells whether its id is new. -/
theorem consume_joins :
    (∀ vs : List ValidConsignment, (∀ v ∈ vs, v.Accepted) → (views vs).Coherent →
      (typeIds vs).length ≤ TypeSystem.capacity →
      ∃ s, empty.consumeAll vs = .ok s ∧ s.Joins (views vs) ∧
        ∀ ws : List ValidConsignment, (∀ v, v ∈ ws ↔ v ∈ vs) →
          ∃ t, empty.consumeAll ws = .ok t ∧ t.Joins (views vs) ∧ t.Same s) ∧
    (∀ (s t : Stash) (v : ValidConsignment) (n : Nat), s.consume v = .ok (n, t) → t.Extends s) ∧
    ∀ (s t : Stash) (r : Record) (new : Bool), s.Replaces r new t → (new = true ↔ s.Lacks r) := by
  refine ⟨fun vs haccepted hcoherent hfits => ?_, fun s t v n => extends_of_consume,
    fun s t r new => new_iff_lacks⟩
  have hvalid : ∀ r ∈ vs.flatMap records, r.Valid := by
    intro r hr
    obtain ⟨v, hv, hr⟩ := List.mem_flatMap.1 hr
    exact (haccepted v hv).valid r hr
  -- what the records show depends on the members of the list only
  have hrun : ∀ ws : List ValidConsignment, (∀ v, v ∈ ws ↔ v ∈ vs) →
      ∃ t, empty.consumeAll ws = .ok t ∧ t.Joins (views vs) := by
    intro ws hws
    have hmem : ∀ r, r ∈ ws.flatMap records ↔ r ∈ vs.flatMap records := by
      intro r
      simp only [List.mem_flatMap, hws]
    have hwsvalid : ∀ r ∈ ws.flatMap records, r.Valid := fun r hr => hvalid r ((hmem r).1 hr)
    obtain ⟨t, ht, hjoins⟩ := joins_empty.foldlM_keep hwsvalid (fun r => (hmem r).1) hcoherent
      (fit_records hfits)
    have hviews : Record.views (ws.flatMap records) = views vs := by
      simp only [Record.views, views, hmem]
    rw [List.nil_append, hviews] at hjoins
    exact ⟨t, (consumeAll_eq _ _).trans ht, hjoins⟩
  obtain ⟨s, hs, hjoins⟩ := hrun vs fun v => Iff.rfl
  refine ⟨s, hs, hjoins, fun ws hws => ?_⟩
  obtain ⟨t, ht, hjoins'⟩ := hrun ws hws
  exact ⟨t, ht, hjoins', hjoins'.same hvalid hcoherent hjoins⟩

section

open Consignment

variable {schemaId : SchemaId} {genesis first second : OpId} {bundle : BundleId}
  {x y : View genesis first second} {v w : ValidConsignment}

/-- The records of a consignment with one view of a bundle. -/
theorem records_handing (hv : v.consignment = handing schemaId [x.toBundle] bundle x.secret) :
    v.records = [.schema rightsSchema, .types .empty, .genesis (granting schemaId),
      .bundle x.toBundle.bundle, .witness (.txid (zeroId .transaction))] := by
  rw [records, hv]
  rfl

/-- Two consignments with one view each are coherent if the views are of different transitions. -/
theorem coherent_handing (hv : v.consignment = handing schemaId [x.toBundle] bundle x.secret)
    (hw : w.consignment = handing schemaId [y.toBundle] bundle y.secret) (hne : x.id ≠ y.id) :
    (views [v, w]).Coherent := by
  have hrecords : [v, w].flatMap records = v.records ++ w.records := by simp
  have hknown : ∀ z : View genesis first second, ∀ t ∈ z.toBundle.bundle.known.values,
      t.opId = .ok z.id ∧ t = passing genesis z.index z.secret := fun z t ht => by
    obtain rfl := List.mem_singleton.1 ht
    exact ⟨z.carried, rfl⟩
  rw [views, hrecords, records_handing hv, records_handing hw]
  refine ⟨?_, ?_, ?_, ?_, by simp [Record.views], by simp [Record.views],
    by simp [Record.views, TypeSystem.empty]⟩
  · rintro id a b ⟨ha, -⟩ ⟨hb, -⟩
    obtain rfl : a = rightsSchema := by simpa using ha
    obtain rfl : b = rightsSchema := by simpa using hb
    exact .refl _
  · rintro id a b ⟨ha, -⟩ ⟨hb, -⟩
    obtain rfl : a = granting schemaId := by simpa using ha
    obtain rfl : b = granting schemaId := by simpa using hb
    exact .refl _
  · rintro id a b ⟨ha, -⟩ ⟨hb, -⟩
    have ha : a = x.toBundle.bundle ∨ a = y.toBundle.bundle := by simpa using ha
    have hb : b = x.toBundle.bundle ∨ b = y.toBundle.bundle := by simpa using hb
    rcases ha with rfl | rfl <;> rcases hb with rfl | rfl <;> rfl
  · rintro i a j b ⟨ha, -⟩ ⟨hb, -⟩ t ht u hu heq
    obtain ⟨z, hz, rfl⟩ : ∃ z : View genesis first second, (z = x ∨ z = y) ∧ a = z.toBundle.bundle := by
      simpa using ha
    obtain ⟨z', hz', rfl⟩ : ∃ z : View genesis first second, (z = x ∨ z = y) ∧ b = z.toBundle.bundle := by
      simpa using hb
    obtain ⟨htid, rfl⟩ := hknown z t ht
    obtain ⟨huid, rfl⟩ := hknown z' u hu
    have hid : z.id = z'.id := Except.ok.inj (htid.symm.trans (heq.trans huid))
    rcases hz with rfl | rfl <;> rcases hz' with rfl | rfl
    · exact .refl _
    · exact absurd hid hne
    · exact absurd hid.symm hne
    · exact .refl _

end

/-- Two consignments with views of one bundle, which reveal a transition each: consuming them, in any
order and number, leads to a bundle that reveals both. -/
theorem consume_joins_views : ∃ (v w : ValidConsignment) (id : BundleId) (first second : OpId)
    (s t : Stash) (b : Bundle), first ≠ second ∧ v.Accepted ∧ w.Accepted ∧
      (views [v, w]).Coherent ∧ (typeIds [v, w]).length ≤ TypeSystem.capacity ∧
      empty.consumeAll [v, w] = .ok s ∧ s.Joins (views [v, w]) ∧
      empty.consumeAll [w, v, w] = .ok t ∧ t.Same s ∧ s.bundles.get? id = some b ∧
        (∃ x, b.known.get? first = some x) ∧ ∃ y, b.known.get? second = some y := by
  obtain ⟨schemaId, genesis, first, second, bundle, hnodup, -, hfirst, hsecond, hbundle, haccepted⟩ :=
    Consignment.exists_accepted_handing
  have hne : first ≠ second := List.pairwise_pair.1 (List.nodup_cons.1 hnodup).2
  let x : Consignment.View genesis first second := .ofFirst hfirst
  let y : Consignment.View genesis first second := .ofSecond hsecond
  obtain ⟨v, hv, hvconsignment, -⟩ := haccepted [] x (Nat.le_of_ble_eq_true rfl)
  obtain ⟨w, hw, hwconsignment, -⟩ := haccepted [] y (Nat.le_of_ble_eq_true rfl)
  have hcoherent := coherent_handing hvconsignment hwconsignment hne
  have htypes : (typeIds [v, w]).length ≤ TypeSystem.capacity := by
    rw [typeIds, List.flatMap_cons, List.flatMap_singleton, hvconsignment, hwconsignment]
    exact Nat.zero_le _
  obtain ⟨s, hs, hjoins, hsame⟩ := consume_joins.1 [v, w]
    (List.forall_mem_cons.2 ⟨hv, List.forall_mem_singleton.2 hw⟩) hcoherent htypes
  obtain ⟨t, ht, -, htwice⟩ := hsame [w, v, w] (by simp)
  -- the bundle that is kept reveals what is known in some view
  have hviews : (views [v, w]).bundle bundle x.toBundle.bundle ∧
      (views [v, w]).bundle bundle y.toBundle.bundle := by
    rw [views, List.flatMap_cons, List.flatMap_singleton, records_handing hvconsignment,
      records_handing hwconsignment]
    exact ⟨⟨by simp, hbundle x⟩, ⟨by simp, hbundle y⟩⟩
  have hknown : ∀ z : Consignment.View genesis first second,
      z.toBundle.bundle.known.get? z.id = some (Consignment.passing genesis z.index z.secret) :=
    fun z => Table.mem_entries.1 (List.mem_singleton.2 rfl)
  obtain ⟨b, hb⟩ := hjoins.bundled bundle _ hviews.1
  obtain ⟨-, hcollects⟩ := hjoins.bundles bundle b hb
  exact ⟨v, w, bundle, first, second, s, t, b, hne, hv, hw, hcoherent, htypes, hs, hjoins, ht, htwice,
    hb, hcollects.kept first _ ⟨_, hviews.1, hknown x⟩,
    hcollects.kept second _ ⟨_, hviews.2, hknown y⟩⟩

end Stash

end StrictContract
