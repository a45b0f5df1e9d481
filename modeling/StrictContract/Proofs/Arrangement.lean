/-! # Arrangements — lists of the same items in another order

What is written in ascending order is first sorted by a **key**: members by their tags, entries by
their encoded keys, definitions by their ids. Sorting makes the keys weakly ascending, and strictly
when they are all different; of the arrangements of the same items, at most one has strictly
ascending keys. So sorting by the test of a linear order does not depend on the arrangement. -/

namespace StrictContract

variable {α β κ : Type}

/-- A rearrangement of images is the image of a rearrangement. -/
theorem exists_perm_of_perm_map {f : α → β} {xs : List α} {ys : List β} (h : ys.Perm (xs.map f)) :
    ∃ zs : List α, zs.Perm xs ∧ ys = zs.map f := by
  generalize hm : xs.map f = m at h
  induction h generalizing xs with
  | nil => exact ⟨[], by rw [List.map_eq_nil_iff.1 hm], rfl⟩
  | cons y _ ih =>
    obtain ⟨x, xs, rfl, rfl, rfl⟩ := List.map_eq_cons_iff.1 hm
    obtain ⟨zs, hzs, rfl⟩ := ih rfl
    exact ⟨x :: zs, hzs.cons x, rfl⟩
  | swap y z l =>
    obtain ⟨a, as, rfl, rfl, hm'⟩ := List.map_eq_cons_iff.1 hm
    obtain ⟨b, xs, rfl, rfl, rfl⟩ := List.map_eq_cons_iff.1 hm'
    exact ⟨b :: a :: xs, .swap a b xs, rfl⟩
  | trans _ _ ih₁ ih₂ =>
    obtain ⟨zs, hzs, rfl⟩ := ih₂ hm
    obtain ⟨ws, hws, rfl⟩ := ih₁ rfl
    exact ⟨ws, hws.trans hzs, rfl⟩

/-! ## Ascending keys -/

/-- Sorted items have weakly ascending keys. -/
theorem pairwise_le_mergeSort [LE κ] [DecidableLE κ] [Std.IsLinearPreorder κ] (key : α → κ)
    (xs : List α) :
    (xs.mergeSort fun a b => decide (key a ≤ key b)).Pairwise fun a b => key a ≤ key b := by
  refine (List.pairwise_mergeSort ?_ ?_ xs).imp of_decide_eq_true
  · intro a b c hab hbc
    exact decide_eq_true (Std.le_trans (of_decide_eq_true hab) (of_decide_eq_true hbc))
  · intro a b
    rw [Bool.or_eq_true, decide_eq_true_eq, decide_eq_true_eq]
    exact Std.le_total

section LinearOrder

variable [LT κ] [LE κ] [Std.LawfulOrderLT κ] [Std.IsLinearOrder κ] (key : α → κ)

/-- Sorted items with different keys have strictly ascending keys. -/
theorem pairwise_lt_mergeSort [DecidableLE κ] {xs : List α} (h : (xs.map key).Nodup) :
    (xs.mergeSort fun a b => decide (key a ≤ key b)).Pairwise fun a b => key a < key b := by
  have hne := ((List.mergeSort_perm xs fun a b => decide (key a ≤ key b)).map key).nodup_iff.2 h
  exact (pairwise_le_mergeSort key xs).imp₂ (fun _ _ hle hne => Std.lt_of_le_of_ne hle hne)
    (List.pairwise_map.1 hne)

/-- Two arrangements of the same items with ascending keys are the same. -/
theorem eq_of_perm_of_ascending {xs ys : List α} (h : xs.Perm ys)
    (hx : (xs.map key).Pairwise (· < ·)) (hy : (ys.map key).Pairwise (· < ·)) : xs = ys := by
  refine h.eq_of_pairwise ?_ (List.pairwise_map.1 hx) (List.pairwise_map.1 hy)
  intro a b _ _ hab hba
  exact absurd (Std.lt_trans hab hba) Std.lt_irrefl

end LinearOrder

/-! ## Tests of an order -/

/-- A test **orders** items when it is the test of a linear order. -/
structure Orders (le : α → α → Bool) : Prop where
  trans : ∀ a b c, le a b = true → le b c = true → le a c = true
  total : ∀ a b, (le a b || le b a) = true
  antisymm : ∀ a b, le a b = true → le b a = true → a = b

/-- Items that are sorted by an order of their keys have keys in this order. -/
theorem Orders.pairwise_mergeSort {le : κ → κ → Bool} (h : Orders le) (key : α → κ) (xs : List α) :
    (xs.mergeSort fun a b => le (key a) (key b)).Pairwise fun a b => le (key a) (key b) = true :=
  List.pairwise_mergeSort (fun a b c => h.trans (key a) (key b) (key c))
    (fun a b => h.total (key a) (key b)) xs

/-- Sorting by an order does not depend on the arrangement. -/
theorem Orders.mergeSort_eq {le : α → α → Bool} (h : Orders le) {xs ys : List α}
    (hperm : xs.Perm ys) : xs.mergeSort le = ys.mergeSort le := by
  have hsorted : (xs.mergeSort le).Perm (ys.mergeSort le) :=
    ((List.mergeSort_perm xs le).trans hperm).trans (List.mergeSort_perm ys le).symm
  exact hsorted.eq_of_pairwise (fun a b _ _ => h.antisymm a b)
    (h.pairwise_mergeSort id xs) (h.pairwise_mergeSort id ys)

/-- The test of a linear order, on keys that tell items apart, orders the items. -/
theorem orders_of_key [LE κ] [DecidableLE κ] [Std.IsLinearOrder κ] (key : α → κ)
    (hkey : ∀ a b, key a = key b → a = b) : Orders fun a b => decide (key a ≤ key b) where
  trans a b c hab hbc :=
    decide_eq_true (Std.le_trans (of_decide_eq_true hab) (of_decide_eq_true hbc))
  total a b := by
    rw [Bool.or_eq_true, decide_eq_true_eq, decide_eq_true_eq]
    exact Std.le_total
  antisymm a b hab hba :=
    hkey a b (Std.le_antisymm (of_decide_eq_true hab) (of_decide_eq_true hba))

end StrictContract
