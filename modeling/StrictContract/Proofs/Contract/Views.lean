import Mathlib.Data.List.Permutation
import StrictContract.Proofs.Codec.Written
import StrictContract.Proofs.Contract.Binding
import StrictContract.Proofs.Contract.Spending

/-! # Views — the order of the bundles and acceptance

The id of a bundle commits to its input map only, so bundles that reveal different transitions can be
views of one bundle. The terminal of such a bundle is looked up in the last **view** that is carried, and
an input in the first operation that has its id. Operations with one id are alike unless they collide,
so which is first does not matter. Views of one bundle may conceal different seals: if they **agree** on
the seals of the terminals, a consignment is accepted with its bundles in any order or in none, and if
it is accepted in any order, they agree. -/

namespace StrictContract

open Codec

namespace Consignment

variable {c : Consignment} {bs : List WitnessBundle}

/-! ## What is found under an id -/

/-- Some operation is the first one with the id of an operation. -/
theorem exists_resolves {id : OpId} {o : Operation} (ho : o ∈ c.operations) (hid : o.opId = .ok id) :
    ∃ o', c.Resolves id o' := by
  have hsome : (c.operations.find? fun x => x.opId.toOption == some id).isSome = true :=
    List.find?_isSome.2 ⟨o, ho, beq_iff_eq.2 (toOption_eq_some.2 hid)⟩
  obtain ⟨o', ho'⟩ := Option.isSome_iff_exists.1 hsome
  rw [List.find?_eq_some_iff_append] at ho'
  simp only [beq_iff_eq, toOption_eq_some, Bool.not_eq_true', beq_eq_false_iff_ne, ne_eq] at ho'
  exact ⟨o', ho'⟩

theorem Resolves.mem {id : OpId} {o : Operation} (h : c.Resolves id o) : o ∈ c.operations := by
  obtain ⟨-, before, after, hsplit, -⟩ := h
  rw [hsplit]
  exact List.mem_append_right _ (List.mem_cons_self ..)

theorem LastBundle.mem {id : BundleId} {w : WitnessBundle} (h : c.LastBundle id w) :
    w ∈ c.bundles := by
  obtain ⟨-, before, after, hsplit, -⟩ := h
  rw [hsplit]
  exact List.mem_append_right _ (List.mem_cons_self ..)

/-- Some bundle is the last one with the id of a bundle. -/
theorem exists_lastBundle {id : BundleId} {w : WitnessBundle} (hw : w ∈ c.bundles)
    (hid : w.bundle.bundleId = .ok id) : ∃ w', c.LastBundle id w' := by
  have hsome : (c.indexed.bundle? id).isSome = true :=
    List.find?_isSome.2 ⟨w.indexed, List.mem_reverse.2 (List.mem_map_of_mem hw),
      beq_iff_eq.2 (toOption_eq_some.2 hid)⟩
  obtain ⟨b, hb⟩ := Option.isSome_iff_exists.1 hsome
  obtain ⟨w', hw', -⟩ := bundle?_indexed.1 hb
  exact ⟨w', hw'⟩

/-! ## Bundles in another order -/

/-- Two operations of a consignment collide: they have the same id, but not the same bytes. -/
def Collides (c : Consignment) : Prop :=
  ∃ o ∈ c.operations, ∃ o' ∈ c.operations, Collide .operation o.encode o'.encode

/-- The carried views of the bundle of a terminal **agree**: they conceal the same of its seals. -/
def ViewsAgree (c : Consignment) : Prop :=
  ∀ e ∈ c.terminals.entries, ∀ v ∈ c.bundles, ∀ w ∈ c.bundles, v.bundle.bundleId = .ok e.1 →
    w.bundle.bundleId = .ok e.1 → ∀ s ∈ e.2, v.bundle.Conceals s → w.bundle.Conceals s

/-- The operations are the same with the bundles in any order. -/
theorem operations_perm (h : bs.Perm c.bundles) :
    ({ c with bundles := bs } : Consignment).operations.Perm c.operations :=
  (h.flatMap_right _).cons _

/-- A consignment has an encoding with its bundles in any order, if it has one. -/
theorem exists_encode_of_perm (h : bs.Perm c.bundles) (hc : ∃ p, c.encode = .ok p) :
    ∃ p, ({ c with bundles := bs } : Consignment).encode = .ok p := by
  have hbundles : (Codec.list WitnessBundle.codec { min := 0, max := 0xffffff } none).Written
      (.tuple (c.bundles.map WitnessBundle.toValue)) →
      (Codec.list WitnessBundle.codec { min := 0, max := 0xffffff } none).Written
        (.tuple (bs.map WitnessBundle.toValue)) := by
    rw [written_list_iff, written_list_iff, (h.map _).length_eq]
    exact And.imp_right fun hall v hv => hall v ((h.map _).mem_iff.1 hv)
  obtain ⟨hversion, htransfer, hterminals, hgenesis, hlist, hrest⟩ :=
    (written_record_iff (by decide) rfl).1 hc
  exact (written_record_iff (by decide) rfl).2
    ⟨hversion, htransfer, hterminals, hgenesis, hbundles hlist, hrest⟩

/-- An encodable consignment is encodable with its bundles in any order. -/
theorem Encodable.of_perm (hc : c.Encodable) (h : bs.Perm c.bundles) :
    ({ c with bundles := bs } : Consignment).Encodable where
  schema := hc.schema
  genesis := hc.genesis
  inputMaps w hw := hc.inputMaps w (h.mem_iff.1 hw)
  transitions w hw := hc.transitions w (h.mem_iff.1 hw)
  whole := exists_encode_of_perm h hc.whole

/-- Alike assignments of one type are as many. -/
theorem length_le_of_alike {a b : Assignments} (h : a.toValue.Alike b.toValue) :
    a.items.length ≤ b.items.length := by
  refine Nat.le_of_not_lt fun hlt => ?_
  obtain ⟨y, hy, -⟩ := (Assignments.alike_items h).2 _ _ (List.getElem?_eq_getElem hlt)
  exact Nat.lt_irrefl _ (List.getElem?_eq_some_iff.1 hy).1

/-- An input of a consignment leads to an assignment with the bundles in any order, unless operations
collide. -/
theorem exists_spent_of_perm (h : bs.Perm c.bundles) (hcollides : ¬ c.Collides) {input : Opout}
    {o : Operation} {a : Assignments} (ho : c.Resolves input.op o)
    (ha : o.state.assignments.get? input.type = some a) (hindex : input.index < a.items.length) :
    ∃ o a, ({ c with bundles := bs } : Consignment).Resolves input.op o ∧
      o.state.assignments.get? input.type = some a ∧ input.index < a.items.length := by
  obtain ⟨o', ho'⟩ := exists_resolves ((operations_perm h).mem_iff.2 ho.mem) ho.1
  have hmem' := (operations_perm h).mem_iff.1 ho'.mem
  rcases o.recovers_codec.alike_or_collide o'.recovers_codec ho.1 ho'.1 with halike | hcollide
  · obtain ⟨b, hb, hab⟩ := Table.exists_get?_of_alike (fun _ _ => Value.Alike.int_iff.1)
      (Operation.alike_assignments halike) ha
    have hlength := length_le_of_alike hab
    exact ⟨o', b, ho', hb, by omega⟩
  · exact absurd ⟨o, ho.mem, o', hmem', hcollide⟩ hcollides

/-! ## Acceptance -/

/-- A consistent consignment of which the views agree is consistent with its bundles in any order,
unless operations collide. -/
theorem Consistent.of_perm (hc : c.Consistent) (h : bs.Perm c.bundles) (hviews : c.ViewsAgree)
    (hcollides : ¬ c.Collides) : ({ c with bundles := bs } : Consignment).Consistent where
  encodable := hc.encodable.of_perm h
  reference := hc.reference
  schema := hc.schema
  genesis := hc.genesis
  transitions w hw := hc.transitions w (h.mem_iff.1 hw)
  links w hw e he := by
    obtain ⟨hcarried, hcontract, hspent, hmapped⟩ := hc.links w (h.mem_iff.1 hw) e he
    refine ⟨hcarried, hcontract, fun input hinput => ?_, hmapped⟩
    obtain ⟨o, a, ho, ha, hindex⟩ := hspent input hinput
    exact exists_spent_of_perm h hcollides ho ha hindex
  terminals e he := by
    obtain ⟨w, hw, hconceals⟩ := hc.terminals e he
    -- what is last in the other order is a view of the same bundle
    obtain ⟨w', hw'⟩ : ∃ w', ({ c with bundles := bs } : Consignment).LastBundle e.1 w' :=
      exists_lastBundle (h.mem_iff.2 hw.mem) hw.1
    exact ⟨w', hw', fun s hs =>
      hviews e he w hw.mem w' (h.mem_iff.1 hw'.mem) hw.1 hw'.1 s hs (hconceals s hs)⟩
  scripts := hc.scripts

/-- Acceptance does not depend on the order of the bundles if the views agree, unless operations
collide. -/
theorem passes_perm_iff (h : bs.Perm c.bundles) (hviews : c.ViewsAgree) (hcollides : ¬ c.Collides) :
    ({ c with bundles := bs } : Consignment).check.Passes ↔ c.check.Passes := by
  rw [passes_check_iff, passes_check_iff]
  refine ⟨fun hd => ?_, fun hc => hc.of_perm h hviews hcollides⟩
  -- the first order is one of the orders of the second
  refine hd.of_perm h.symm (fun e he v hv w hw => ?_) ?_
  · exact hviews e he v (h.mem_iff.1 hv) w (h.mem_iff.1 hw)
  · rintro ⟨o, ho, o', ho', hcollide⟩
    exact hcollides
      ⟨o, (operations_perm h).mem_iff.1 ho, o', (operations_perm h).mem_iff.1 ho', hcollide⟩

/-- A bundle that is put at the end is the last one with its id. -/
theorem LastBundle.eq_of_end {id : BundleId} {w w' : WitnessBundle} {before : List WitnessBundle}
    (h : c.LastBundle id w') (hbundles : c.bundles = before ++ [w]) (hid : w.bundle.bundleId = .ok id) :
    w' = w := by
  obtain ⟨-, before', after, hsplit, hafter⟩ := h
  rw [hbundles] at hsplit
  rcases List.eq_nil_or_concat after with rfl | ⟨after, x, rfl⟩
  · exact (List.cons.inj (List.append_inj_right' hsplit rfl)).1.symm
  · rw [List.concat_eq_append] at hsplit hafter
    rw [← List.cons_append, ← List.append_assoc] at hsplit
    obtain ⟨-, hlast⟩ := List.append_inj' hsplit rfl
    obtain rfl := (List.cons.inj hlast).1
    exact absurd hid (hafter w (List.mem_append_right _ (List.mem_singleton_self _)))

/-- If a consignment is accepted with its bundles in any order, the views agree. -/
theorem viewsAgree_of_passes
    (h : ∀ bs : List WitnessBundle, bs.Perm c.bundles →
      ({ c with bundles := bs } : Consignment).check.Passes) : c.ViewsAgree := by
  intro e he v _ w hw _ hid s hs _
  -- the view is the last one with its id in some order
  obtain ⟨before, after, hsplit⟩ := List.append_of_mem hw
  have hperm : (before ++ after ++ [w]).Perm c.bundles := by
    rw [hsplit]
    exact (List.perm_append_singleton ..).trans List.perm_middle.symm
  obtain ⟨w', hw', hconceals⟩ := (passes_check_iff.1 (h _ hperm)).terminals e he
  obtain rfl := hw'.eq_of_end rfl hid
  exact hconceals s hs

/-- **The order of the bundles.** If carried views of one bundle agree on the seals of the terminals, a
consignment is accepted with its bundles in one order exactly if it is in another, unless two of its
operations collide. If it is accepted in any order, the views agree. -/
theorem passes_in_any_order_iff (c : Consignment) :
    (∀ bs : List WitnessBundle, bs.Perm c.bundles → c.ViewsAgree →
      (({ c with bundles := bs } : Consignment).check.Passes ↔ c.check.Passes) ∨ c.Collides) ∧
    ((∀ bs : List WitnessBundle, bs.Perm c.bundles →
      ({ c with bundles := bs } : Consignment).check.Passes) → c.ViewsAgree) := by
  refine ⟨fun bs h hviews => ?_, viewsAgree_of_passes⟩
  by_cases hcollides : c.Collides
  · exact .inr hcollides
  · exact .inl (passes_perm_iff h hviews hcollides)

/-! ## Two views of one bundle -/

/-- Two views that conceal the same seal agree, and both orders of them are accepted. -/
theorem passes_in_any_order_iff_agreeing : ∃ (c : Consignment) (v w : WitnessBundle), v ≠ w ∧
    c.bundles = [v, w] ∧ c.ViewsAgree ∧ c.check.Passes ∧
      ((({ c with bundles := [w, v] } : Consignment).check.Passes ↔ c.check.Passes) ∨ c.Collides) := by
  obtain ⟨schemaId, _, _, _, bundle, v, w, -, -, hne, -, hvw, hwv⟩ :=
    exists_consistent_views (zeroId .secretSeal) (zeroId .secretSeal)
  obtain ⟨horder, hagree⟩ :=
    passes_in_any_order_iff (handing schemaId [v.toBundle, w.toBundle] bundle _)
  have hviews := hagree fun bs h => by
    rw [passes_check_iff]
    rcases List.perm_pair.1 h with rfl | rfl
    · exact hvw
    · exact hwv
  exact ⟨_, _, _, hne, rfl, hviews, passes_check_iff.2 hvw, horder _ (.swap ..) hviews⟩

/-- Of two views that conceal different seals, the one with the seal that is handed over has to be the
last. -/
theorem passes_depends_on_order : ∃ (c : Consignment) (bs : List WitnessBundle),
    bs.Perm c.bundles ∧ c.check.Passes ∧ ¬ ({ c with bundles := bs } : Consignment).check.Passes := by
  obtain ⟨schemaId, _, _, _, bundle, v, w, hsecret, -, -, hv, hvw, -⟩ :=
    exists_consistent_views (zeroId .secretSeal) ⟨List.replicate 32 1, rfl⟩
  refine ⟨handing schemaId [v.toBundle, w.toBundle] bundle _, [w.toBundle, v.toBundle], .swap ..,
    passes_check_iff.2 hvw, fun hpasses => ?_⟩
  obtain ⟨x, hx, hhanded⟩ :=
    (passes_check_iff.1 hpasses).terminals (bundle, _) (List.mem_singleton_self _)
  obtain rfl := hx.eq_of_end (show _ = [w.toBundle] ++ [v.toBundle] from rfl) hv
  have hsame := (View.conceals_iff.1 (hhanded _ (List.mem_singleton_self _))).trans hsecret
  exact absurd (congrArg Id.octets hsame) (by decide)

end Consignment

end StrictContract
