import Mathlib.Data.List.Pairwise
import StrictContract.Proofs.Contract.Boards
import StrictContract.Proofs.Contract.Places

/-! # Bundling — no assignment is spent twice inside of a bundle

No part of a check looks for assignments that are spent twice. But an input map leads an assignment to
one transition, and the known transitions of an accepted consignment are those that their inputs lead
to: so two of them share no input. The bundle that is made of transitions leads an input that several of
them spend to the last one, and then the check reports the others at the input map. So the check
**clears** the bundle exactly when no two of the transitions share an input. -/

namespace StrictContract

open Codec

namespace Bundle

variable {b : Bundle}

/-- A bundle has **own keys** when it carries no transition under a foreign id. -/
def OwnKeys (b : Bundle) : Prop := ∀ x ∈ b.known.entries, ∀ id, x.2.opId = .ok id → x.1 = id

/-- A bundle is **mapped** when its input map leads every input of a known transition to it. -/
def Mapped (b : Bundle) : Prop :=
  ∀ x ∈ b.known.entries, ∀ id, x.2.opId = .ok id → ∀ o ∈ x.2.inputs, b.inputMap.get? o = some id

/-- Transitions of a mapped bundle that have different ids share no input. -/
theorem Mapped.disjoint (h : b.Mapped) {x y : OpId × Transition} (hx : x ∈ b.known.entries)
    (hy : y ∈ b.known.entries) {id id' : OpId} (hid : x.2.opId = .ok id) (hid' : y.2.opId = .ok id')
    (hne : id ≠ id') : x.2.inputs.Disjoint y.2.inputs := by
  intro o ho ho'
  have hboth : some id = some id' := (h x hx id hid o ho).symm.trans (h y hy id' hid' o ho')
  exact hne (Option.some.inj hboth)

/-! ## Cleared bundles -/

end Bundle

/-- A report **clears** the bundle at a position when it has no mismatch of identifiers in the bundle
and no violation at its input map. -/
def Report.Clears (report : Report) (i : Nat) : Prop :=
  ∀ e ∈ report.violations,
    (e.kind = .identifierMismatch → ¬ e.At (bundlePath i)) ∧ ¬ e.At (bundlePath i ++ ".input_map")

namespace Consignment

variable {c : Consignment} {report : Report} {i : Nat} {w : WitnessBundle}

/-- Only transitions under foreign ids are reported as mismatches. -/
theorem exists_foreign (h : c.check.Yields (.ok report)) {e : StrictError} (he : e ∈ report.violations)
    (hkind : e.kind = .identifierMismatch) :
    ∃ j v, c.bundles[j]? = some v ∧ ¬ v.bundle.OwnKeys ∧ e.At (bundlePath j) := by
  rcases elsewhere_or_blames h e he with he | he
  · exact absurd hkind he.kind
  cases he with
  | unwritten _ _ hconcerns => exact absurd hkind hconcerns.kind
  | foreign hj hx hid hne =>
    refine ⟨_, _, hj, fun hown => hne (hown _ hx _ hid), (StrictError.at_of _ _).mono ?_⟩
    exact (leads_append _ _).trans (leads_transitionPath _ _)
  | unmapped => exact absurd hkind (StrictError.concerns_of (leads_refl _) (by nofun)).kind

/-- A bundle with own keys that is mapped, of which the input map has an encoding, is cleared. -/
theorem clears_of_mapped (h : c.check.Yields (.ok report)) (hw : c.bundles[i]? = some w)
    (hwritten : Bundle.inputMapCodec.Written w.bundle.inputMapValue) (hown : w.bundle.OwnKeys)
    (hmapped : w.bundle.Mapped) : report.Clears i := by
  intro e he
  constructor
  · intro hkind hat
    obtain ⟨j, v, hv, hforeign, hat'⟩ := exists_foreign h he hkind
    obtain rfl := hat.position_eq hat'
    cases hw.symm.trans hv
    exact hforeign hown
  · intro hat
    -- whatever is blamed at this input map is blamed on this bundle
    have hbundle : e.At (bundlePath i) := hat.mono (leads_append _ _)
    rcases elsewhere_or_blames h e he with he | he
    · exact he.apart i hat
    cases he with
    | unwritten hj hinputs hconcerns =>
      obtain rfl := hbundle.position_eq (hconcerns.isAt.mono (leads_append _ _))
      cases hw.symm.trans hj
      exact hinputs hwritten
    | foreign =>
      exact ((StrictError.at_of _ _).mono (leads_transitionPath _ _)).not_of_apart
        (apart_inputMap apart_known _ i) hat
    | unmapped hj hx hid hinput hne =>
      obtain rfl := hbundle.position_eq ((StrictError.at_of _ _).mono (leads_append _ _))
      cases hw.symm.trans hj
      exact hne (hmapped _ hx _ hid _ hinput)

/-- A bundle is mapped when nothing is reported at its input map. -/
theorem mapped_of_forall_not_at (h : c.check.Yields (.ok report)) (hw : c.bundles[i]? = some w)
    (hnone : ∀ e ∈ report.violations, ¬ e.At (bundlePath i ++ ".input_map")) : w.bundle.Mapped := by
  intro x hx id hid o ho
  by_contra hne
  exact hnone _ (mem_violations_of_unmapped h hw hx hid ho hne) (StrictError.at_of _ _)

/-- A bundle with own keys, of which the input map has an encoding, is cleared when it is mapped. -/
theorem clears_iff_mapped (h : c.check.Yields (.ok report)) (hw : c.bundles[i]? = some w)
    (hwritten : Bundle.inputMapCodec.Written w.bundle.inputMapValue) (hown : w.bundle.OwnKeys) :
    report.Clears i ↔ w.bundle.Mapped :=
  ⟨fun hclears => mapped_of_forall_not_at h hw fun e he => (hclears e he).2,
    clears_of_mapped h hw hwritten hown⟩

/-- If all bundles have own keys, nothing is a mismatch, wherever it is. -/
theorem clean_iff_mapped (h : c.check.Yields (.ok report)) (hw : c.bundles[i]? = some w)
    (hwritten : Bundle.inputMapCodec.Written w.bundle.inputMapValue)
    (hown : ∀ (j : Nat) (v : WitnessBundle), c.bundles[j]? = some v → v.bundle.OwnKeys) :
    (∀ e ∈ report.violations, e.kind ≠ .identifierMismatch ∧
      ¬ e.At (bundlePath i ++ ".input_map")) ↔ w.bundle.Mapped := by
  refine ⟨fun hclean => mapped_of_forall_not_at h hw fun e he => (hclean e he).2,
    fun hmapped e he => ⟨fun hkind => ?_, ?_⟩⟩
  · obtain ⟨j, v, hv, hforeign, -⟩ := exists_foreign h he hkind
    exact hforeign (hown j v hv)
  · exact (clears_of_mapped h hw hwritten (hown i w hw) hmapped e he).2

/-- The bundles of a consistent consignment are mapped. -/
theorem Consistent.mapped (h : c.Consistent) (hw : w ∈ c.bundles) : w.bundle.Mapped := by
  intro x hx id hid o ho
  have hlinks := h.links w hw x hx
  rw [hlinks.mapped o ho, Except.ok.inj (hlinks.carried.symm.trans hid)]

end Consignment

/-! ## Made bundles -/

/-- The parts of a transition that has an encoding have encodings, and there are inputs. -/
theorem Transition.written_inputs {t : Transition} (h : codec.Written t.toValue) :
    t.inputs ≠ [] ∧ ∀ o ∈ t.inputs, Opout.codec.Written o.toValue := by
  obtain ⟨-, -, -, -, -, hinputs, -⟩ := (written_record_iff (by decide) rfl).1 h
  obtain ⟨hn, hinputs⟩ := written_of_set hinputs
  refine ⟨?_, List.forall_mem_map.1 hinputs⟩
  rintro hnil
  rw [hnil] at hn
  cases hn

namespace Bundle

/-- A bundle **reveals** transitions when it carries just them, under their ids, and its input map leads
just their inputs, each of them to one of the transitions that spend it. -/
structure Reveals (b : Bundle) (ts : List Transition) : Prop where
  carries : ∀ id t, b.known.get? id = some t ↔ t ∈ ts ∧ t.opId = .ok id
  leads : ∀ o id, b.inputMap.get? o = some id → ∃ t ∈ ts, o ∈ t.inputs ∧ t.opId = .ok id
  covers : ∀ t ∈ ts, ∀ o ∈ t.inputs, ∃ id, b.inputMap.get? o = some id

theorem reveals_nil : Reveals ⟨.empty, .empty⟩ [] where
  carries _ _ := ⟨nofun, nofun⟩
  leads _ _ := nofun
  covers := nofun

namespace Reveals

variable {b : Bundle} {ts : List Transition} (h : b.Reveals ts)
include h

/-- A transition with an id of its own can be revealed as well. -/
theorem step {t : Transition} {id : OpId} (hid : t.opId = .ok id) (hnew : ∀ u ∈ ts, u.opId ≠ t.opId) :
    ∃ b', b.reveal t = .ok b' ∧ b'.Reveals (ts ++ [t]) := by
  refine ⟨_, bind_eq_ok.2 ⟨id, hid, rfl⟩, ?_, ?_, ?_⟩
  -- an id is that of the new transition, which no other one has, or of an old one
  · intro key u
    rw [Table.get?_put, List.mem_append, List.mem_singleton]
    split
    · rename_i hkey
      rw [hkey, Option.some_inj]
      constructor
      · rintro rfl
        exact ⟨.inr rfl, hid⟩
      · rintro ⟨hu | rfl, huid⟩
        · exact absurd (huid.trans hid.symm) (hnew u hu)
        · rfl
    · rename_i hkey
      rw [h.carries]
      constructor
      · rintro ⟨hu, huid⟩
        exact ⟨.inl hu, huid⟩
      · rintro ⟨hu | rfl, huid⟩
        · exact ⟨hu, huid⟩
        · exact absurd (Except.ok.inj (huid.symm.trans hid)) hkey
  -- an input is one of the new transition, whatever it led to before, or leads where it did
  · intro o key ho
    rw [Table.get?_foldl_put] at ho
    split at ho
    · rename_i hmem
      exact ⟨t, List.mem_append_right _ (List.mem_singleton_self t), hmem, Option.some.inj ho ▸ hid⟩
    · obtain ⟨u, hu, hou, huid⟩ := h.leads o key ho
      exact ⟨u, List.mem_append_left _ hu, hou, huid⟩
  · intro u hu o ho
    rw [Table.get?_foldl_put]
    split
    · exact ⟨id, rfl⟩
    · rename_i hmem
      rcases List.mem_append.1 hu with hu | hu
      · exact h.covers u hu o ho
      · exact absurd (List.mem_singleton.1 hu ▸ ho) hmem

/-- Transitions with ids of their own can be revealed one after another. -/
theorem run {us : List Transition} (hids : ∀ t ∈ us, ∃ id, t.opId = .ok id)
    (hnodup : ((ts ++ us).map Transition.opId).Nodup) :
    ∃ b', us.foldlM reveal b = .ok b' ∧ b'.Reveals (ts ++ us) := by
  -- the revealed transitions move from the second list to the first
  induction us generalizing b ts with
  | nil => exact ⟨b, rfl, (List.append_nil ts).symm ▸ h⟩
  | cons t us ih =>
    rw [List.forall_mem_cons] at hids
    obtain ⟨id, hid⟩ := hids.1
    have hnew : ∀ u ∈ ts, u.opId ≠ t.opId := by
      rw [List.map_append, List.nodup_append] at hnodup
      exact fun u hu => hnodup.2.2 _ (List.mem_map_of_mem hu) _ (List.mem_map_of_mem List.mem_cons_self)
    obtain ⟨b', hb', hreveals⟩ := h.step hid hnew
    rw [List.append_cons] at hnodup ⊢
    obtain ⟨b'', hb'', hall⟩ := ih hreveals hids.2 hnodup
    exact ⟨b'', by rw [List.foldlM_cons, hb']; exact hb'', hall⟩

/-- What is carried are the transitions with their ids. -/
theorem mem_known {x : OpId × Transition} :
    x ∈ b.known.entries ↔ x.2 ∈ ts ∧ x.2.opId = .ok x.1 :=
  Table.mem_entries.trans (h.carries x.1 x.2)

/-- A bundle that reveals transitions has own keys. -/
theorem ownKeys : b.OwnKeys := fun _ hx _ hid =>
  Except.ok.inj ((h.mem_known.1 hx).2.symm.trans hid)

/-- The input map has an encoding if the transitions have, and not too many inputs. -/
theorem written (hne : ts ≠ []) (hwritten : ∀ t ∈ ts, Transition.codec.Written t.toValue)
    (htotal : (ts.flatMap Transition.inputs).length ≤ 0xffff) :
    inputMapCodec.Written b.inputMapValue := by
  have hkeys : ∀ e ∈ b.inputMap.entries, ∃ t ∈ ts, e.1 ∈ t.inputs := by
    intro e he
    obtain ⟨t, ht, ho, -⟩ := h.leads e.1 e.2 (Table.mem_entries.1 he)
    exact ⟨t, ht, ho⟩
  -- every input has one entry, however many transitions spend it
  have hmost : b.inputMap.entries.length ≤ 0xffff := by
    have hsubset : b.inputMap.keys ⊆ ts.flatMap Transition.inputs := by
      intro o ho
      obtain ⟨e, he, rfl⟩ := List.mem_map.1 ho
      exact List.mem_flatMap.2 (hkeys e he)
    have hlength := (List.subperm_of_subset b.inputMap.nodup hsubset).length_le
    rw [List.length_map] at hlength
    exact hlength.trans htotal
  have hleast : 1 ≤ b.inputMap.entries.length := by
    obtain ⟨t, ht⟩ := List.exists_mem_of_ne_nil ts hne
    obtain ⟨o, ho⟩ := List.exists_mem_of_ne_nil t.inputs (Transition.written_inputs (hwritten t ht)).1
    obtain ⟨id, hid⟩ := h.covers t ht o ho
    exact List.length_pos_of_mem (Table.mem_entries.2 hid)
  have hopouts : ∀ e ∈ b.inputMap.entries, Opout.codec.Written e.1.toValue := by
    intro e he
    obtain ⟨t, ht, ho⟩ := hkeys e he
    exact (Transition.written_inputs (hwritten t ht)).2 e.1 ho
  refine written_mapping ?_ (List.forall_mem_map.2 fun e he => ⟨hopouts e he, written_id _ _⟩) ?_
  · rw [List.length_map]
    exact decide_eq_true ⟨hleast, hmost⟩
  · refine List.pairwise_map.2 ((List.pairwise_map.1 b.inputMap.nodup).imp_of_mem ?_)
    intro d e hd he hde heq
    obtain ⟨p, hp⟩ := hopouts d hd
    exact hde (Opout.eq_of_write hp (heq ▸ hp))

/-- The known transitions have an encoding if each of them has, and there are not too many. -/
theorem written_known (hne : ts ≠ []) (hids : ∀ t ∈ ts, ∃ id, t.opId = .ok id)
    (hwritten : ∀ t ∈ ts, Transition.codec.Written t.toValue) (hlength : ts.length ≤ 0xffff) :
    (Codec.map (.id .operation) Transition.codec .shortNonempty .mapping none).Written
      (.map (b.known.entries.map fun e => (.id .operation e.1, e.2.toValue))) := by
  have hmost : b.known.entries.length ≤ 0xffff := by
    have hsubset : b.known.entries.map (fun e => Except.ok e.1) ⊆ ts.map Transition.opId := by
      intro id hid
      obtain ⟨e, he, rfl⟩ := List.mem_map.1 hid
      exact List.mem_map.2 ⟨e.2, h.mem_known.1 he⟩
    have hnodup : (b.known.entries.map fun e => (Except.ok e.1 : Except Failure OpId)).Nodup :=
      List.pairwise_map.2 ((List.pairwise_map.1 b.known.nodup).imp fun hne heq =>
        hne (Except.ok.inj heq))
    have hsize := (List.subperm_of_subset hnodup hsubset).length_le
    rw [List.length_map, List.length_map] at hsize
    exact hsize.trans hlength
  have hleast : 1 ≤ b.known.entries.length := by
    obtain ⟨t, ht⟩ := List.exists_mem_of_ne_nil ts hne
    obtain ⟨id, hid⟩ := hids t ht
    exact List.length_pos_of_mem (h.mem_known (x := (id, t)) |>.2 ⟨ht, hid⟩)
  refine written_mapping ?_ (List.forall_mem_map.2 fun e he =>
    ⟨written_id _ _, hwritten e.2 (h.mem_known.1 he).1⟩) ?_
  · rw [List.length_map]
    exact decide_eq_true ⟨hleast, hmost⟩
  · refine List.pairwise_map.2 ((List.pairwise_map.1 b.known.nodup).imp fun hde heq => hde ?_)
    rw [write_id, write_id] at heq
    exact Id.ext (Except.ok.inj heq)

/-- The bundle is mapped when no two of the transitions share an input. -/
theorem mapped_iff (hids : ∀ t ∈ ts, ∃ id, t.opId = .ok id) (hnodup : (ts.map Transition.opId).Nodup) :
    b.Mapped ↔ ts.Pairwise fun t u => t.inputs.Disjoint u.inputs := by
  constructor
  · intro hmapped
    refine (List.pairwise_map.1 hnodup).imp_of_mem fun {t u} ht hu hne => ?_
    obtain ⟨id, hid⟩ := hids t ht
    obtain ⟨id', hid'⟩ := hids u hu
    refine hmapped.disjoint (x := (id, t)) (y := (id', u)) (h.mem_known.2 ⟨ht, hid⟩)
      (h.mem_known.2 ⟨hu, hid'⟩) hid hid' ?_
    rintro rfl
    exact hne (hid.trans hid'.symm)
  · rintro hdisjoint ⟨key, t⟩ hx id hid o ho
    have ht := (h.mem_known.1 hx).1
    obtain ⟨id', hid'⟩ := h.covers t ht o ho
    obtain ⟨u, hu, hou, huid⟩ := h.leads o id' hid'
    -- the transition that the input map leads to shares the input, so it is the same
    have hsame : t = u := by
      by_contra hne
      have : Std.Symm fun t u : Transition => t.inputs.Disjoint u.inputs :=
        ⟨fun _ _ h _ ho ho' => h ho' ho⟩
      exact hdisjoint.forall ht hu hne ho hou
    rw [hid', Except.ok.inj (huid.symm.trans (hsame ▸ hid))]

end Reveals

/-- Transitions with different ids make a bundle that reveals them. -/
theorem exists_reveals {ts : List Transition} (hids : ∀ t ∈ ts, ∃ id, t.opId = .ok id)
    (hnodup : (ts.map Transition.opId).Nodup) : ∃ b, ofTransitions ts = .ok b ∧ b.Reveals ts :=
  reveals_nil.run hids hnodup

end Bundle

/-! ## Two rights in one bundle -/

namespace Consignment

variable {schemaId : SchemaId} {genesis : OpId} {b : Bundle} {ts : List Transition}

/-- A consignment of rights with one bundle. -/
def revealing (schemaId : SchemaId) (b : Bundle) : Consignment :=
  { smallest schemaId with
    genesis := granting schemaId
    bundles := [⟨.txid (zeroId .transaction), b⟩]
    schema := rightsSchema }

/-- The bundle that reveals transitions which pass on rights of the genesis is consistent if it is
mapped. -/
theorem consistent_revealing (hschema : rightsSchema.schemaId = .ok schemaId)
    (hgenesis : (Operation.genesis (granting schemaId)).opId = .ok genesis)
    (hpassing : ∀ t ∈ ts, ∃ index secret, (index = 0 ∨ index = 1) ∧ t = passing genesis index secret)
    (hids : ∀ t ∈ ts, ∃ id, t.opId = .ok id) (hne : ts ≠ []) (hlength : ts.length ≤ 0xffff)
    (htotal : (ts.flatMap Transition.inputs).length ≤ 0xffff) (hreveals : b.Reveals ts)
    (hmapped : b.Mapped) : (revealing schemaId b).Consistent := by
  have hwritten : ∀ t ∈ ts, Transition.codec.Written t.toValue := by
    intro t ht
    obtain ⟨index, secret, hindex, rfl⟩ := hpassing t ht
    exact written_passing hindex
  have hinputs := hreveals.written hne hwritten htotal
  have hknown := hreveals.written_known hne hids hwritten hlength
  refine
    { encodable :=
        { schema := written_rightsSchema
          genesis := written_granting
          inputMaps := List.forall_mem_singleton.2 hinputs
          transitions := List.forall_mem_singleton.2 fun e he =>
            hwritten e.2 (hreveals.mem_known.1 he).1
          whole := ?_ }
      reference := hschema
      schema := passes_rightsSchema
      genesis := fun _ => Operation.passes_validate_iff.2 conformsTo_granting
      transitions := List.forall_mem_singleton.2 fun e he _ => ?_
      links := List.forall_mem_singleton.2 fun e he => ?_
      terminals := List.forall_mem_nil _
      scripts := ?_ }
  · exact (written_record_iff (by decide) rfl).2 ⟨written_version, written_noTransfer,
      written_mapping_nil rfl, written_granting,
      written_list_iff.2 ⟨rfl, List.forall_mem_singleton.2 (written_witnessed hinputs hknown)⟩,
      written_rightsSchema, written_noTypes, ⟨_, write_set_nil rfl⟩, trivial⟩
  · obtain ⟨index, secret, -, ht⟩ := hpassing e.2 (hreveals.mem_known.1 he).1
    rw [ht]
    exact Operation.passes_validate_iff.2 conformsTo_passing
  · obtain ⟨hmem, hown⟩ := hreveals.mem_known.1 he
    have hleads := hmapped e he e.1 hown
    obtain ⟨index, secret, hindex, ht⟩ := hpassing e.2 hmem
    rw [ht] at hown hleads ⊢
    exact links_right rfl hgenesis rfl rfl hindex hown (hleads _ (List.mem_singleton_self _))
  · show ∀ e ∈ rightsSchema.libSites, _
    rw [libSites_rightsSchema]
    exact List.forall_mem_nil _

end Consignment

/-! ## Double spends -/

namespace Bundle

/-- **No assignment is spent twice inside of a bundle.** Known transitions of an accepted consignment
that are in one bundle and have different ids share no input. And transitions that have encodings and
different ids, and not too many inputs, make a bundle that a check clears exactly when no two of them
share an input, in whatever consignment the bundle is. If the other bundles have own keys, the check
finds no mismatch of identifiers at all and nothing at the input map exactly then; and an ordinary
consignment that is checkable does have a report. -/
theorem spends_once :
    (∀ c : Consignment, c.check.Passes → ∀ w ∈ c.bundles, ∀ x ∈ w.bundle.known.entries,
      ∀ y ∈ w.bundle.known.entries, x.1 ≠ y.1 ∨ x.2.opId ≠ y.2.opId →
        x.2.inputs.Disjoint y.2.inputs) ∧
    ∀ ts : List Transition, ts ≠ [] → (∀ t ∈ ts, ∃ p, (Operation.transition t).encode = .ok p) →
      (ts.map Transition.opId).Nodup → (ts.flatMap Transition.inputs).length ≤ 0xffff →
        ∃ b, ofTransitions ts = .ok b ∧
          ∀ (c : Consignment) (i : Nat) (w : WitnessBundle), c.bundles[i]? = some w → w.bundle = b →
            (c.Ordinary → c.Checkable → ∃ report, c.check.Yields (.ok report)) ∧
            ∀ report, c.check.Yields (.ok report) →
              (report.Clears i ↔ ts.Pairwise fun t u => t.inputs.Disjoint u.inputs) ∧
              ((∀ j v, c.bundles[j]? = some v → j ≠ i → v.bundle.OwnKeys) →
                ((∀ e ∈ report.violations, e.kind ≠ .identifierMismatch ∧
                  ¬ e.At (bundlePath i ++ ".input_map")) ↔
                ts.Pairwise fun t u => t.inputs.Disjoint u.inputs)) := by
  constructor
  · intro c hpasses w hw x hx y hy hne
    have hc := Consignment.passes_check_iff.1 hpasses
    have hxid := (hc.links w hw x hx).carried
    have hyid := (hc.links w hw y hy).carried
    refine (hc.mapped hw).disjoint hx hy hxid hyid fun hkeys => ?_
    exact hne.elim (· hkeys) (· (hxid.trans (hkeys ▸ hyid.symm)))
  · intro ts hnonempty hencodes hnodup htotal
    have hids : ∀ t ∈ ts, ∃ id, t.opId = .ok id := fun t ht => exists_made.2 (hencodes t ht)
    have hwritten : ∀ t ∈ ts, Transition.codec.Written t.toValue := by
      intro t ht
      obtain ⟨p, hp⟩ := hencodes t ht
      obtain ⟨q, hq, -⟩ := Operation.encode_transition_eq_ok.1 hp
      exact ⟨q, hq⟩
    obtain ⟨b, hb, hreveals⟩ := exists_reveals hids hnodup
    -- the report only sees whether the bundle is mapped
    refine ⟨b, hb, fun c i w hw hwb => ⟨fun hordinary => hordinary.exists_report_iff.2, ?_⟩⟩
    subst hwb
    intro report hreport
    have hmapped := hreveals.mapped_iff hids hnodup
    have hinputs := hreveals.written hnonempty hwritten htotal
    have hown := hreveals.ownKeys
    refine ⟨(Consignment.clears_iff_mapped hreport hw hinputs hown).trans hmapped, fun hothers =>
      (Consignment.clean_iff_mapped hreport hw hinputs fun j v hv => ?_).trans hmapped⟩
    by_cases hj : j = i
    · subst hj
      cases hw.symm.trans hv
      exact hown
    · exact hothers j v hv hj

/-- Two transitions that pass on a right of the genesis each have different ids and share no input; the
bundle that is made of them is cleared. -/
theorem spends_once_rights : ∃ (c : Consignment) (w : WitnessBundle) (t u : Transition)
    (report : Report), c.bundles = [w] ∧ ofTransitions [t, u] = .ok w.bundle ∧ t.opId ≠ u.opId ∧
      c.check.Passes ∧ t.inputs.Disjoint u.inputs ∧ c.check.Yields (.ok report) ∧ report.Clears 0 := by
  obtain ⟨schemaId, genesis, first, second, hschema, hgenesis, hfirst, hsecond, -, -, hne⟩ :=
    Consignment.exists_passing_ne
  let t := Consignment.passing genesis 0 (Consignment.zeroId .secretSeal)
  let u := Consignment.passing genesis 1 (Consignment.zeroId .secretSeal)
  have hids : ∀ x ∈ [t, u], ∃ id, x.opId = .ok id :=
    List.forall_mem_cons.2 ⟨⟨first, hfirst⟩, List.forall_mem_singleton.2 ⟨second, hsecond⟩⟩
  have hdifferent : t.opId ≠ u.opId := fun heq =>
    hne (Except.ok.inj (hfirst.symm.trans (heq.trans hsecond)))
  have hnodup : ([t, u].map Transition.opId).Nodup := List.pairwise_pair.2 hdifferent
  have hapart : [t, u].Pairwise fun t u => t.inputs.Disjoint u.inputs := by
    refine List.pairwise_pair.2 fun o ho ho' => ?_
    cases (List.mem_singleton.1 ho).symm.trans (List.mem_singleton.1 ho')
  have hencodes : ∀ x ∈ [t, u], ∃ p, (Operation.transition x).encode = .ok p := fun x hx =>
    exists_made.1 (hids x hx)
  have htotal : ([t, u].flatMap Transition.inputs).length ≤ 0xffff := Nat.le_of_ble_eq_true rfl
  obtain ⟨b, hb, hreveals⟩ := exists_reveals hids hnodup
  have hmapped := (hreveals.mapped_iff hids hnodup).2 hapart
  have hconsistent := Consignment.consistent_revealing hschema hgenesis
    (List.forall_mem_cons.2 ⟨⟨0, _, .inl rfl, rfl⟩, List.forall_mem_singleton.2 ⟨1, _, .inr rfl, rfl⟩⟩)
    hids (by nofun) (Nat.le_of_ble_eq_true rfl) htotal hreveals hmapped
  have hpasses := Consignment.passes_check_iff.2 hconsistent
  obtain ⟨hspends, hclears⟩ := spends_once
  obtain ⟨b', hb', hclears⟩ := hclears [t, u] (by nofun) hencodes hnodup htotal
  obtain rfl := Except.ok.inj (hb.symm.trans hb')
  refine ⟨Consignment.revealing schemaId b, _, t, u, _, rfl, hb, hdifferent, hpasses, ?_, hpasses, ?_⟩
  · have ht : (first, t) ∈ b.known.entries := hreveals.mem_known.2 ⟨List.mem_cons_self, hfirst⟩
    have hu : (second, u) ∈ b.known.entries :=
      hreveals.mem_known.2 ⟨List.mem_cons_of_mem _ List.mem_cons_self, hsecond⟩
    exact hspends _ hpasses _ List.mem_cons_self _ ht _ hu (.inr hdifferent)
  · exact ((hclears _ 0 _ rfl rfl).2 _ hpasses).1.2 hapart

end Bundle

end StrictContract
