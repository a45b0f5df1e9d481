import StrictContract.Table

/-! # Tables — what is found under a key

In a list of entries with different keys, the value that is found under a key is that of the entry
with the key. A table made from such a list has just these entries, in the same order. -/

namespace StrictContract

variable {κ α : Type} [DecidableEq κ]

/-- A key has a value when it is the key of an entry. -/
theorem isSome_lookup {entries : List (κ × α)} {k : κ} :
    (entries.lookup k).isSome = true ↔ k ∈ entries.map Prod.fst := by
  rw [List.lookup_isSome_iff, List.mem_map]
  constructor
  · rintro ⟨e, he, hk⟩
    exact ⟨e, he, (eq_of_beq hk).symm⟩
  · rintro ⟨e, he, rfl⟩
    exact ⟨e, he, beq_self_eq_true _⟩

/-- What is found under a key is there with the key. -/
theorem mem_of_lookup {entries : List (κ × α)} {k : κ} {a : α} (h : entries.lookup k = some a) :
    (k, a) ∈ entries := by
  obtain ⟨before, after, rfl, -⟩ := List.lookup_eq_some_iff.1 h
  exact List.mem_append_right _ (List.mem_cons_self ..)

/-- Among different keys, the value of a key is that of its entry. -/
theorem lookup_eq_some_iff_mem {entries : List (κ × α)} (hnodup : (entries.map Prod.fst).Nodup)
    {k : κ} {a : α} : entries.lookup k = some a ↔ (k, a) ∈ entries := by
  induction entries with
  | nil => simp
  | cons e entries ih =>
    rw [List.map_cons, List.nodup_cons] at hnodup
    rw [List.lookup_cons, List.mem_cons]
    by_cases hk : k = e.1
    · subst hk
      simp only [beq_self_eq_true, Option.some.injEq]
      constructor
      · rintro rfl
        exact .inl rfl
      · rintro (he | hmem)
        · exact (Prod.ext_iff.1 he).2.symm
        · exact absurd (List.mem_map_of_mem hmem) hnodup.1
    · rw [beq_eq_false_iff_ne.2 hk, ih hnodup.2]
      constructor
      · exact .inr
      · rintro (rfl | hmem)
        · exact absurd rfl hk
        · exact hmem

omit [DecidableEq κ] in
/-- Entries with different keys are different. -/
theorem nodup_of_keys {entries : List (κ × α)} (h : (entries.map Prod.fst).Nodup) : entries.Nodup :=
  List.Pairwise.of_map Prod.fst (fun _ _ hne heq => hne (congrArg Prod.fst heq)) h

/-- The items of a list without repetitions are its items. -/
theorem mem_distinct {items : List κ} {a : κ} : a ∈ distinct items ↔ a ∈ items := by
  have key : ∀ known : List κ,
      a ∈ items.foldl (fun acc a => if acc.contains a then acc else a :: acc) known ↔
        a ∈ known ∨ a ∈ items := by
    induction items with
    | nil => simp
    | cons b items ih =>
      intro known
      rw [List.foldl_cons, ih, List.mem_cons]
      split
      · rename_i hb
        have hb := List.contains_iff_mem.1 hb
        constructor
        · exact Or.imp_right .inr
        · rintro (h | rfl | h)
          · exact .inl h
          · exact .inl hb
          · exact .inr h
      · rw [List.mem_cons, or_comm (a := a = b), or_assoc]
  rw [distinct, List.mem_reverse, key]
  simp

namespace Table

omit [DecidableEq κ] in
/-- A table without entries has none to sort. -/
@[simp] theorem sorted_empty {le : κ → κ → Bool} : (empty : Table κ α).sorted le = [] :=
  List.mergeSort_nil

/-- A new key comes last. -/
theorem putEntry_of_not_mem {entries : List (κ × α)} {k : κ} {a : α}
    (h : k ∉ entries.map Prod.fst) : putEntry k a entries = entries ++ [(k, a)] := by
  induction entries with
  | nil => rfl
  | cons e entries ih =>
    rw [List.map_cons, List.mem_cons, not_or] at h
    rw [putEntry, if_neg fun he => h.1 he.symm, ih h.2, List.cons_append]

/-- The entries of a table are what is found in it. -/
theorem mem_entries {t : Table κ α} {k : κ} {a : α} : (k, a) ∈ t.entries ↔ t.get? k = some a :=
  (lookup_eq_some_iff_mem t.nodup).symm

/-- What is found in entries is in the first one or in the rest. -/
theorem lookup_cons_eq_ite {e : κ × α} {entries : List (κ × α)} {x : κ} :
    (e :: entries).lookup x = if x = e.1 then some e.2 else entries.lookup x := by
  rw [List.lookup_cons]
  by_cases hx : x = e.1
  · rw [if_pos hx, beq_iff_eq.2 hx]
  · rw [if_neg hx, beq_eq_false_iff_ne.2 hx]

/-- A key that is set has its new value, every other key its old one. -/
theorem get?_put {t : Table κ α} {k x : κ} {a : α} :
    (t.put k a).get? x = if x = k then some a else t.get? x := by
  show (putEntry k a t.entries).lookup x = if x = k then some a else t.entries.lookup x
  induction t.entries with
  | nil => exact lookup_cons_eq_ite
  | cons e entries ih =>
    rw [putEntry]
    by_cases hk : e.1 = k
    · rw [if_pos hk, lookup_cons_eq_ite, lookup_cons_eq_ite, hk]
      by_cases hx : x = k
      · rw [if_pos hx, if_pos hx]
      · rw [if_neg hx, if_neg hx, if_neg hx]
    · rw [if_neg hk, lookup_cons_eq_ite, lookup_cons_eq_ite, ih]
      by_cases hx : x = e.1
      · rw [if_pos hx, if_pos hx, if_neg fun h => hk (hx.symm.trans h)]
      · rw [if_neg hx, if_neg hx]

/-- A key that has a value keeps one when another value is set. -/
theorem contains_put_of_contains {t : Table κ α} {k x : κ} {a : α} (h : t.contains x = true) :
    (t.put k a).contains x = true := by
  rw [contains, get?_put]
  split
  · rfl
  · exact h

/-- A key that is erased has no value, every other key its old one. -/
theorem get?_erase {t : Table κ α} {k x : κ} :
    (t.erase k).get? x = if x = k then none else t.get? x := by
  show (t.entries.filter fun e => e.1 ≠ k).lookup x = if x = k then none else t.entries.lookup x
  induction t.entries with
  | nil => exact (ite_self none).symm
  | cons e entries ih =>
    by_cases hk : e.1 = k
    · rw [List.filter_cons_of_neg (by simpa using hk), ih, lookup_cons_eq_ite, hk]
      by_cases hx : x = k
      · rw [if_pos hx, if_pos hx]
      · rw [if_neg hx, if_neg hx, if_neg hx]
    · rw [List.filter_cons_of_pos (by simpa using hk), lookup_cons_eq_ite, lookup_cons_eq_ite, ih]
      by_cases hx : x = e.1
      · rw [if_pos hx, if_pos hx, if_neg fun h => hk (hx.symm.trans h)]
      · rw [if_neg hx, if_neg hx]

/-- Keys that are erased one by one have no value, every other key its old one. -/
theorem get?_foldl_erase {keys : List κ} {t : Table κ α} {x : κ} :
    (keys.foldl erase t).get? x = if x ∈ keys then none else t.get? x := by
  induction keys generalizing t with
  | nil => simp
  | cons k keys ih =>
    rw [List.foldl_cons, ih, get?_erase]
    by_cases hx : x ∈ keys <;> by_cases hk : x = k <;> simp [hx, hk]

/-- Setting keys to one value one after another gives all of them that value. -/
theorem get?_foldl_put {keys : List κ} {t : Table κ α} {x : κ} {a : α} :
    (keys.foldl (fun t k => t.put k a) t).get? x = if x ∈ keys then some a else t.get? x := by
  induction keys generalizing t with
  | nil => simp
  | cons k keys ih =>
    rw [List.foldl_cons, ih, get?_put]
    by_cases hx : x = k <;> simp [hx]

/-- A key that is there keeps its value when a new one is only added. -/
theorem get?_putNew {t : Table κ α} {k x : κ} {a : α} :
    (t.putNew k a).get? x = (t.get? x).or (if x = k then some a else none) := by
  have hkeys : t.contains k = true ↔ k ∈ t.entries.map Prod.fst := isSome_lookup
  rw [putNew]
  by_cases hk : t.contains k = true
  · rw [if_pos hk]
    by_cases hx : x = k
    · subst hx
      obtain ⟨b, hb⟩ := Option.isSome_iff_exists.1 hk
      rw [hb, Option.some_or]
    · rw [if_neg hx, Option.or_none]
  · rw [if_neg hk]
    show List.lookup x (putEntry k a t.entries) = (List.lookup x t.entries).or _
    rw [putEntry_of_not_mem fun hmem => hk (hkeys.2 hmem), List.lookup_append, List.lookup_cons]
    by_cases hx : x = k
    · rw [if_pos hx, beq_iff_eq.2 hx]
    · rw [if_neg hx, beq_eq_false_iff_ne.2 hx, List.lookup_nil]

/-- Of entries that are added one by one, the first with a key gives its value. -/
theorem get?_foldl_putNew {entries : List (κ × α)} {t : Table κ α} {k : κ} :
    (entries.foldl (fun t e => t.putNew e.1 e.2) t).get? k = (t.get? k).or (entries.lookup k) := by
  induction entries generalizing t with
  | nil => rw [List.lookup_nil, Option.or_none]; rfl
  | cons e entries ih =>
    rw [List.foldl_cons, ih, get?_putNew, Option.or_assoc, List.lookup_cons]
    by_cases hk : k = e.1
    · rw [if_pos hk, beq_iff_eq.2 hk, Option.some_or]
    · rw [if_neg hk, beq_eq_false_iff_ne.2 hk, Option.none_or]

/-- The keys of entries that are added one by one, each key once and in order. -/
theorem keys_foldl_putNew {entries : List (κ × α)} :
    (entries.foldl (fun t e => t.putNew e.1 e.2) empty).keys = distinct (entries.map Prod.fst) := by
  have key : ∀ t : Table κ α, (entries.foldl (fun t e => t.putNew e.1 e.2) t).keys =
      ((entries.map Prod.fst).foldl (fun acc a => if acc.contains a then acc else a :: acc)
        t.keys.reverse).reverse := by
    induction entries with
    | nil => intro t; exact (List.reverse_reverse _).symm
    | cons e entries ih =>
      intro t
      have hkeys : t.contains e.1 = true ↔ e.1 ∈ t.keys := isSome_lookup
      rw [List.foldl_cons, ih, List.map_cons, List.foldl_cons]
      congr 2
      rw [putNew]
      by_cases hin : e.1 ∈ t.keys
      · rw [if_pos (hkeys.2 hin), if_pos (List.contains_iff_mem.2 (List.mem_reverse.2 hin))]
      · rw [if_neg fun h => hin (hkeys.1 h),
          if_neg fun h => hin (List.mem_reverse.1 (List.contains_iff_mem.1 h))]
        show (List.map Prod.fst (putEntry e.1 e.2 t.entries)).reverse = _
        rw [putEntry_of_not_mem hin, List.map_append, List.reverse_append]
        rfl
  exact key empty

/-- A list without repetitions repeats nothing. -/
theorem nodup_distinct (items : List κ) : (distinct items).Nodup := by
  have h := @keys_foldl_putNew κ Unit _ (items.map fun a => (a, ()))
  rw [List.map_map, Function.comp_def, List.map_id'] at h
  exact h ▸ Table.nodup _

/-- New entries are put behind those that are there. -/
theorem entries_foldl_put {entries : List (κ × α)} (t : Table κ α)
    (h : (t.entries.map Prod.fst ++ entries.map Prod.fst).Nodup) :
    (entries.foldl (fun t (k, a) => t.put k a) t).entries = t.entries ++ entries := by
  induction entries generalizing t with
  | nil => exact (List.append_nil _).symm
  | cons e entries ih =>
    have hnew : (t.put e.1 e.2).entries = t.entries ++ [e] := by
      refine putEntry_of_not_mem fun hmem => ?_
      exact (List.nodup_append.1 h).2.2 _ hmem _ (by simp) rfl
    rw [List.foldl_cons, ih (t.put e.1 e.2), hnew, List.append_assoc, List.singleton_append]
    rw [hnew]
    simpa using h

/-- A table made from entries with different keys has these entries. -/
theorem entries_ofList {entries : List (κ × α)} (h : (entries.map Prod.fst).Nodup) :
    (ofList entries).entries = entries := by
  rw [ofList, entries_foldl_put empty (by simpa [empty] using h)]
  rfl

/-- Tables with the same entries have the same value under every key. -/
theorem get?_eq_of_perm {t u : Table κ α} (h : t.entries.Perm u.entries) (k : κ) :
    t.get? k = u.get? k :=
  Option.ext fun a => by rw [← mem_entries, ← mem_entries, h.mem_iff]

/-- Tables with the same entries are compared as the same. -/
theorem same_of_perm [DecidableEq α] {t u : Table κ α} (h : t.entries.Perm u.entries) :
    t.same u = true := by
  rw [same, Bool.and_eq_true, List.all_eq_true]
  refine ⟨beq_iff_eq.2 h.length_eq, fun e he => beq_iff_eq.2 ?_⟩
  exact mem_entries.1 (h.mem_iff.1 he)

/-- A table is made again from its entries. -/
theorem ofList_entries (t : Table κ α) : ofList t.entries = t := by
  have h := entries_ofList t.nodup
  cases hu : ofList t.entries
  rw [hu] at h
  cases t
  cases h
  rfl

end Table

end StrictContract
