import StrictContract.Proofs.Codec.Construction
import StrictContract.Value.Order

/-! # The order of values — items sorted and made unique by numbers

Items are sorted by putting one after another behind those that do not come after it. Where the keys
are natural numbers this is the stable sort by these numbers: it has the same items with each number,
in the same order. Entries under numbers are made unique as items are by their numbers. -/

namespace StrictContract

variable {α : Type}

/-! ## Stable sorting -/

section

variable {tag : α → Nat}

/-- Lists with ascending numbers are the same if they have the same items with each number, in the
same order. -/
theorem eq_of_ascending_of_filter {xs ys : List α} (hx : xs.Pairwise fun a b => tag a ≤ tag b)
    (hy : ys.Pairwise fun a b => tag a ≤ tag b)
    (h : ∀ n, xs.filter (tag · = n) = ys.filter (tag · = n)) : xs = ys := by
  -- an item of either list is in the other one
  have hmem : ∀ {a : α} {us vs : List α}, us.filter (tag · = tag a) = vs.filter (tag · = tag a) →
      a ∈ us → a ∈ vs := by
    intro a us vs hsame ha
    have hin : a ∈ us.filter (tag · = tag a) := List.mem_filter.2 ⟨ha, by simp⟩
    rw [hsame] at hin
    exact (List.mem_filter.1 hin).1
  induction xs generalizing ys with
  | nil =>
    cases ys with
    | nil => rfl
    | cons y ys => exact absurd (hmem (h (tag y)).symm (List.mem_cons_self ..)) List.not_mem_nil
  | cons x xs ih =>
    cases ys with
    | nil => exact absurd (hmem (h (tag x)) (List.mem_cons_self ..)) List.not_mem_nil
    | cons y ys =>
      rw [List.pairwise_cons] at hx hy
      have hle : ∀ {a b : α} {us : List α}, (∀ c ∈ us, tag b ≤ tag c) → a ∈ b :: us →
          tag b ≤ tag a := by
        intro a b us hus ha
        rcases List.mem_cons.1 ha with rfl | ha
        · exact Nat.le_refl _
        · exact hus a ha
      -- both heads have the least number, so they are the first items with this number
      have htag : tag x = tag y := Nat.le_antisymm
        (hle hx.1 (hmem (h (tag y)).symm (List.mem_cons_self ..)))
        (hle hy.1 (hmem (h (tag x)) (List.mem_cons_self ..)))
      have hhead := h (tag x)
      rw [List.filter_cons_of_pos (by simp), List.filter_cons_of_pos (by simp [htag])] at hhead
      obtain ⟨rfl, -⟩ := List.cons.inj hhead
      refine congrArg (x :: ·) (ih hx.2 hy.2 fun n => ?_)
      have hn := h n
      by_cases hxn : tag x = n
      · rw [List.filter_cons_of_pos (by simp [hxn]), List.filter_cons_of_pos (by simp [hxn])] at hn
        exact (List.cons.inj hn).2
      · rwa [List.filter_cons_of_neg (by simp [hxn]), List.filter_cons_of_neg (by simp [hxn])] at hn

/-- Sorting keeps the order of items with equal numbers. -/
theorem filter_mergeSort (xs : List α) (n : Nat) :
    (xs.mergeSort fun a b => decide (tag a ≤ tag b)).filter (tag · = n) =
      xs.filter (tag · = n) := by
  have hequal : (xs.filter (tag · = n)).Pairwise fun a b => decide (tag a ≤ tag b) = true := by
    refine List.pairwise_of_forall_mem_list fun a ha b hb => decide_eq_true ?_
    have ha := of_decide_eq_true (List.mem_filter.1 ha).2
    have hb := of_decide_eq_true (List.mem_filter.1 hb).2
    omega
  have htrans : ∀ a b c : α, decide (tag a ≤ tag b) = true → decide (tag b ≤ tag c) = true →
      decide (tag a ≤ tag c) = true := fun a b c hab hbc =>
    decide_eq_true (Nat.le_trans (of_decide_eq_true hab) (of_decide_eq_true hbc))
  have htotal : ∀ a b : α, (decide (tag a ≤ tag b) || decide (tag b ≤ tag a)) = true := by
    intro a b
    rw [Bool.or_eq_true, decide_eq_true_eq, decide_eq_true_eq]
    exact Nat.le_total _ _
  have hsub := List.sublist_mergeSort htrans htotal hequal List.filter_sublist
  have hsub' := hsub.filter (tag · = n)
  rw [List.filter_filter] at hsub'
  simp only [Bool.and_self] at hsub'
  refine (hsub'.eq_of_length ?_).symm
  exact (((List.mergeSort_perm xs _).filter _).length_eq).symm

/-- Puts an item behind all items of an ascending list of which the number is not greater. -/
def insertBehind (tag : α → Nat) (a : α) : List α → List α
  | [] => [a]
  | b :: rest => if tag a < tag b then a :: b :: rest else b :: insertBehind tag a rest

/-- What is inserted comes last among the items with its number. -/
theorem filter_insertBehind {xs : List α} (hx : xs.Pairwise fun a b => tag a ≤ tag b) (a : α)
    (n : Nat) :
    (insertBehind tag a xs).filter (tag · = n) = (xs ++ [a]).filter (tag · = n) := by
  induction xs with
  | nil => rfl
  | cons b xs ih =>
    rw [List.pairwise_cons] at hx
    rw [insertBehind]
    by_cases hlt : tag a < tag b
    · rw [if_pos hlt]
      by_cases han : tag a = n
      · -- nothing behind the item has its number
        have hnone : (b :: xs).filter (tag · = n) = [] := by
          rw [List.filter_eq_nil_iff]
          intro c hc
          have hbc : tag b ≤ tag c := by
            rcases List.mem_cons.1 hc with rfl | hc
            · exact Nat.le_refl _
            · exact hx.1 c hc
          simp only [decide_eq_true_eq]
          omega
        rw [List.filter_append, hnone, List.filter_cons_of_pos (by simp [han]), hnone]
        simp [han]
      · rw [List.filter_append, List.filter_cons_of_neg (by simp [han])]
        simp [han]
    · rw [if_neg hlt, List.cons_append, List.filter_cons, List.filter_cons, ih hx.2]

/-- An item that is inserted into an ascending list leaves it ascending. -/
theorem pairwise_insertBehind {xs : List α} (hx : xs.Pairwise fun a b => tag a ≤ tag b) (a : α) :
    (insertBehind tag a xs).Pairwise fun a b => tag a ≤ tag b := by
  have hmem : ∀ {c : α} {ys : List α}, c ∈ insertBehind tag a ys → c = a ∨ c ∈ ys := by
    intro c ys hc
    induction ys with
    | nil => exact .inl (List.mem_singleton.1 hc)
    | cons b ys ih =>
      rw [insertBehind] at hc
      split at hc
      · exact List.mem_cons.1 hc
      · rcases List.mem_cons.1 hc with rfl | hc
        · exact .inr (List.mem_cons_self ..)
        · exact (ih hc).imp_right (List.mem_cons_of_mem _)
  induction xs with
  | nil => exact List.pairwise_singleton _ a
  | cons b xs ih =>
    rw [insertBehind]
    split
    · rename_i hlt
      refine List.pairwise_cons.2 ⟨fun c hc => ?_, hx⟩
      rcases List.mem_cons.1 hc with rfl | hc
      · exact Nat.le_of_lt hlt
      · exact Nat.le_trans (Nat.le_of_lt hlt) ((List.pairwise_cons.1 hx).1 c hc)
    · rename_i hle
      rw [List.pairwise_cons] at hx
      refine List.pairwise_cons.2 ⟨fun c hc => ?_, ih hx.2⟩
      rcases hmem hc with rfl | hc
      · exact Nat.le_of_not_lt hle
      · exact hx.1 c hc

/-- Inserting items one after another sorts them. -/
theorem foldl_insertBehind (xs : List α) :
    xs.foldl (fun sorted a => insertBehind tag a sorted) [] =
      xs.mergeSort fun a b => decide (tag a ≤ tag b) := by
  have hfold : ∀ ys : List α, (xs.foldl (fun sorted a => insertBehind tag a sorted)
        (ys.mergeSort fun a b => decide (tag a ≤ tag b))) =
      (ys ++ xs).mergeSort fun a b => decide (tag a ≤ tag b) := by
    induction xs with
    | nil => intro ys; rw [List.append_nil]; rfl
    | cons a xs ih =>
      intro ys
      have hstep : insertBehind tag a (ys.mergeSort fun a b => decide (tag a ≤ tag b)) =
          (ys ++ [a]).mergeSort fun a b => decide (tag a ≤ tag b) := by
        have hsorted := pairwise_le_mergeSort tag ys
        refine eq_of_ascending_of_filter (pairwise_insertBehind hsorted a)
          (pairwise_le_mergeSort tag _) fun n => ?_
        rw [filter_insertBehind hsorted, List.filter_append, filter_mergeSort, filter_mergeSort,
          List.filter_append]
      rw [List.foldl_cons, hstep, ih, List.append_assoc]
      rfl
  have h := hfold []
  rwa [List.mergeSort_nil, List.nil_append] at h

end

/-! ## Values under numbers -/

namespace Value

/-- Values that stand for numbers are ordered as these are. -/
theorem precedes_of_number? {v w : Value} {m n : Int} (hv : v.number? = some m)
    (hw : w.number? = some n) : v.precedes w = .ok (decide (m < n)) := by
  cases v <;> cases w <;> simp_all [precedes, scalarPrecedes, number?]

theorem precedes_ofNat (m n : Nat) : (ofNat m).precedes (ofNat n) = .ok (decide (m < n)) := by
  rw [precedes_of_number? rfl rfl, decide_eq_decide.2 Int.ofNat_lt]

/-- The values that are the same key as a number are those that stand for this number. -/
theorem same_iff_of_number? {v w : Value} {n : Int} (hv : v.number? = some n) :
    v.same w = true ↔ w.number? = some n := by
  cases v <;> simp_all [number?, same]

@[simp] theorem same_ofNat {m n : Nat} : same (ofNat m) (ofNat n) = decide (m = n) := by
  rw [Bool.eq_iff_iff, same_iff_of_number? rfl, decide_eq_true_iff]
  show some (n : Int) = some (m : Int) ↔ m = n
  rw [Option.some.injEq, Int.natCast_inj, eq_comm]

/-- Items with numbers as keys are sorted by these numbers. -/
theorem sortOn_ofNat {β : Type} (key : β → Value) (f : α → β) (tag : α → Nat)
    (hkey : ∀ a, key (f a) = ofNat (tag a)) (xs : List α) :
    sortOn key (xs.map f) = .ok ((xs.mergeSort fun a b => decide (tag a ≤ tag b)).map f) := by
  have hinsert : ∀ a ys, insertOn key (f a) (ys.map f) = .ok ((insertBehind tag a ys).map f) := by
    intro a ys
    induction ys with
    | nil => rfl
    | cons b ys ih =>
      rw [List.map_cons, insertOn, insertBehind, hkey, hkey, precedes_ofNat]
      by_cases hlt : tag a < tag b
      · rw [if_pos hlt, decide_eq_true hlt]
        rfl
      · rw [if_neg hlt, decide_eq_false hlt, ih]
        rfl
  have hfold : ∀ ys, (xs.map f).foldlM (fun sorted a => insertOn key a sorted) (ys.map f) =
      .ok ((xs.foldl (fun sorted a => insertBehind tag a sorted) ys).map f) := by
    induction xs with
    | nil => intro ys; rfl
    | cons a xs ih =>
      intro ys
      rw [List.map_cons, List.foldlM_cons, hinsert, List.foldl_cons, ← ih]
      rfl
  rw [sortOn, ← foldl_insertBehind]
  exact hfold []

/-- Entries under numbers are made unique like items by their numbers: of those with one number the
last stays, in the place of the first. -/
theorem unique_ofNat {β : Type} (g : α → β) (xs : List (Nat × α)) :
    unique (xs.map fun x => (ofNat x.1, g x.2)) =
      (lastByKey Prod.fst xs).map fun x => (ofNat x.1, g x.2) := by
  let entry : Nat × α → Value × β := fun x => (ofNat x.1, g x.2)
  have hset : ∀ (found : List (Nat × α)) (x : Nat × α),
      setEntry (found.map entry) (ofNat x.1) (g x.2) = (addLast Prod.fst found x).map entry := by
    intro found x
    have hany : ((found.map entry).any fun e => same e.1 (ofNat x.1)) =
        found.any (Prod.fst · = x.1) := by
      simp [entry, List.any_map, Function.comp_def]
    unfold setEntry addLast
    by_cases h : found.any (Prod.fst · = x.1) = true
    · rw [if_pos (hany.trans h), if_pos h, List.map_map, List.map_map]
      refine List.map_congr_left fun y _ => ?_
      by_cases hy : y.1 = x.1
      · simp [entry, hy]
      · simp [entry, hy]
    · rw [if_neg (fun h' => h (hany.symm.trans h')), if_neg h]
      rfl
  have hfold : ∀ found : List (Nat × α),
      (xs.map entry).foldl (fun acc e => setEntry acc e.1 e.2) (found.map entry) =
        (xs.foldl (addLast Prod.fst) found).map entry := by
    induction xs with
    | nil => intro found; rfl
    | cons x xs ih =>
      intro found
      have hx : setEntry (found.map entry) (entry x).1 (entry x).2 = _ := hset found x
      rw [List.map_cons, List.foldl_cons, List.foldl_cons, ← ih, hx]
  calc unique (xs.map entry)
    _ = ((xs.map entry).foldl (fun acc e => setEntry acc e.1 e.2)
          (([] : List (Nat × α)).map entry)).reverse := rfl
    _ = (lastByKey Prod.fst xs).map entry := by
      rw [hfold, ← List.map_reverse]
      rfl

end Value

end StrictContract
