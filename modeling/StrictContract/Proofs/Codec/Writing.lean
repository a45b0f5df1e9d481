import Mathlib.Data.List.Nodup
import StrictContract.Proofs.Arrangement
import StrictContract.Proofs.Codec.Encoding

/-! # Writing — when a collection has canonical bytes

Sets and maps are written in ascending order of their encoded elements or keys.
`Codec.ascending_eq_ok` characterizes this **ascending arrangement**: it is the only rearrangement in
which the encodings strictly ascend, and it exists unless two encodings coincide. The other
statements give, for every kind of collection, the conditions under which a value is written and the
bytes it is written as. -/

namespace StrictContract

variable {α β : Type}

/-- Nothing is written for a text with a surrogate in it. -/
theorem refuseText_ne_ok {first rest : Charset} {b : Bounds} {t : BrokenText} {p : Octets} :
    refuseText first rest b t ≠ .ok p := by
  intro h
  obtain ⟨_, -, h⟩ := bind_eq_ok.1 h
  obtain ⟨_, -, h⟩ := bind_eq_ok.1 h
  cases h

/-- Sorted encodings that do not coincide ascend. -/
theorem pairwise_lt_of_repeated?_eq_none {xs : List (Octets × α)}
    (hsorted : (xs.map Prod.fst).Pairwise (· ≤ ·)) (hnone : repeated? xs = none) :
    (xs.map Prod.fst).Pairwise (· < ·) := by
  induction xs with
  | nil => exact .nil
  | cons x xs ih =>
    cases xs with
    | nil => simp
    | cons y xs =>
      rw [repeated?] at hnone
      split at hnone
      · cases hnone
      · rename_i hne
        rw [List.map_cons, List.pairwise_cons] at hsorted ⊢
        have hxy : x.1 < y.1 :=
          (List.le_iff_lt_or_eq.1 (hsorted.1 y.1 (by simp))).resolve_right hne
        have hys := ih hsorted.2 hnone
        refine ⟨fun k hk => ?_, hys⟩
        rw [List.map_cons] at hk hys
        rcases List.mem_cons.1 hk with rfl | hk
        · exact hxy
        · exact List.lt_trans hxy ((List.pairwise_cons.1 hys).1 k hk)

/-- Ascending encodings do not coincide. -/
theorem repeated?_eq_none_of_pairwise_lt {xs : List (Octets × α)}
    (h : (xs.map Prod.fst).Pairwise (· < ·)) : repeated? xs = none := by
  induction xs with
  | nil => rfl
  | cons x xs ih =>
    cases xs with
    | nil => rfl
    | cons y xs =>
      rw [List.map_cons, List.pairwise_cons] at h
      have hne : x.1 ≠ y.1 := by
        intro he
        have hlt := h.1 y.1 (by simp)
        rw [he] at hlt
        exact List.lt_irrefl _ hlt
      rw [repeated?, if_neg hne]
      exact ih h.2

/-- The ascending arrangement of encoded entries is the only one in which the encodings strictly
ascend. -/
theorem ascending_eq_ok {entries sorted : List (Octets × α)} :
    ascending entries = .ok sorted ↔
      sorted.Perm entries ∧ (sorted.map Prod.fst).Pairwise (· < ·) := by
  have hperm := List.mergeSort_perm entries fun a b => a.1.le b.1
  have hle : ((entries.mergeSort fun a b => a.1.le b.1).map Prod.fst).Pairwise (· ≤ ·) := by
    rw [List.pairwise_map]
    exact pairwise_le_mergeSort Prod.fst entries
  unfold ascending
  simp only
  constructor
  · intro h
    split at h
    · rename_i hnone
      cases h
      exact ⟨hperm, pairwise_lt_of_repeated?_eq_none hle hnone⟩
    · cases h
  · rintro ⟨hp, hlt⟩
    -- sorting a rearrangement gives the ascending one, since no two keys coincide
    have hne : ((entries.mergeSort fun a b => a.1.le b.1).map Prod.fst).Nodup :=
      ((hperm.trans hp.symm).map Prod.fst).nodup_iff.2 hlt.nodup
    have hsorted := eq_of_perm_of_ascending Prod.fst (hperm.trans hp.symm)
      (hle.imp₂ (fun _ _ hab hne => (List.le_iff_lt_or_eq.1 hab).resolve_right hne) hne) hlt
    rw [hsorted, repeated?_eq_none_of_pairwise_lt hlt]

/-! ## Collections -/

namespace Value

/-- A value is looped over when it has items. -/
theorem iterate_eq_ok {v : Value} {items : List Value} :
    v.iterate = .ok items ↔ v.items? = some items := by
  unfold iterate
  cases v.items? <;> simp

/-- A pair consists of its two parts. -/
theorem unpair_tuple (a b : Value) : (tuple [a, b]).unpair = .ok (a, b) := rfl

end Value

namespace Codec

attribute [local simp] write writeItems writeFields writeBare writeNamed writeAccepted

variable {item key value : Codec}

/-- A list is written when its items are, behind their number. -/
theorem write_list_eq_ok {b : Bounds} {label : Option String} {v : Value} {p : Octets} :
    (list item b label).write v = .ok p ↔ ∃ xs : List (Value × Octets),
      v.items? = some (xs.map Prod.fst) ∧ b.admits xs.length = true ∧
      (∀ x ∈ xs, item.write x.1 = .ok x.2) ∧
      p = b.lengthPrefix xs.length ++ (xs.map Prod.snd).flatten := by
  rw [write]
  simp only [bind_eq_ok, Value.iterate_eq_ok, mapM_zipIdx_eq_ok, pure_eq_ok]
  simp only [mapM_eq_ok]
  constructor
  · rintro ⟨_, hv, ⟨⟩, hn, _, ⟨xs, rfl, rfl, hxs⟩, rfl⟩
    rw [List.length_map] at hn ⊢
    exact ⟨xs, hv, checkEntries_eq_ok.1 hn, hxs, rfl⟩
  · rintro ⟨xs, hv, hn, hxs, rfl⟩
    exact ⟨_, hv, (), checkEntries_eq_ok.2 (by rwa [List.length_map]), _, ⟨xs, rfl, rfl, hxs⟩,
      by rw [List.length_map]⟩

/-- A set is written when its elements are, and no two of them as the same bytes. -/
theorem write_set_eq_ok {b : Bounds} {form : SetForm} {label : Option String} {v : Value}
    {p : Octets} :
    (set item b form label).write v = .ok p ↔ ∃ xs ys : List (Value × Octets),
      v.items? = some (xs.map Prod.fst) ∧ (∀ x ∈ xs, item.write x.1 = .ok x.2) ∧ ys.Perm xs ∧
      (ys.map Prod.snd).Pairwise (· < ·) ∧ b.admits ys.length = true ∧
      p = b.lengthPrefix ys.length ++ (ys.map Prod.snd).flatten := by
  rw [write]
  simp only [bind_eq_ok, Value.iterate_eq_ok, pure_eq_ok, mapM_eq_ok, ascending_eq_ok,
    insideEntry_eq_ok]
  constructor
  · rintro ⟨_, hv, _, ⟨ps, rfl, rfl, hps⟩, _, ⟨hperm, hlt⟩, ⟨⟩, hn, rfl⟩
    obtain ⟨zs, hzs, rfl⟩ := exists_perm_of_perm_map hperm
    refine ⟨ps.map fun q => (q.1, q.2.1), zs.map fun q => (q.1, q.2.1), ?_, ?_, hzs.map _, ?_, ?_, ?_⟩
    · simpa [Function.comp_def] using hv
    · intro x hx
      obtain ⟨q, hq, rfl⟩ := List.mem_map.1 hx
      obtain ⟨octets, ho, hq'⟩ := hps q hq
      rw [ho, ← hq']
    · simpa [Function.comp_def] using hlt
    · simpa using checkEntries_eq_ok.1 hn
    · simp [Function.comp_def]
  · rintro ⟨xs, ys, hv, hxs, hperm, hlt, hn, rfl⟩
    refine ⟨_, hv, _, ⟨xs.map fun x => (x.1, x.2, ()), ?_, rfl, ?_⟩, ys.map fun x => (x.2, ()),
      ⟨?_, ?_⟩, (), ?_, ?_⟩
    · simp [Function.comp_def]
    · intro q hq
      obtain ⟨x, hx, rfl⟩ := List.mem_map.1 hq
      exact ⟨x.2, hxs x hx, rfl⟩
    · simpa [Function.comp_def] using hperm.map fun x => (x.2, ())
    · simpa [Function.comp_def] using hlt
    · simpa using checkEntries_eq_ok.2 hn
    · simp [Function.comp_def]

/-- Sets of images are written alike when the images are. -/
theorem write_set_map_congr {γ : Type} {f g : γ → Value}
    (h : ∀ c p, item.write (f c) = .ok p ↔ item.write (g c) = .ok p) (xs : List γ) {b : Bounds}
    {form : SetForm} {label : Option String} {p : Octets} :
    (set item b form label).write (.set (xs.map f)) = .ok p ↔
      (set item b form label).write (.set (xs.map g)) = .ok p := by
  have hround : ∀ c ∈ xs, ∀ entry : Octets × Unit,
      (do return (← insideEntry (f c) (item.write (f c)), ())) = Except.ok entry ↔
        (do return (← insideEntry (g c) (item.write (g c)), ())) = Except.ok entry := by
    simp only [bind_eq_ok, insideEntry_eq_ok, h, implies_true]
  have hloop := mapM_map_congr (s := fun x => do return (← insideEntry x (item.write x), ())) hround
  rw [write, write]
  simp only [bind_eq_ok, Value.iterate_eq_ok, Value.items?, Option.some.injEq,
    exists_eq_left'] at hloop ⊢
  simp only [hloop]

/-- A map is written when its keys and values are, and no two keys as the same bytes. -/
theorem write_map_eq_ok {b : Bounds} {form : MapForm} {label : Option String} {v : Value}
    {p : Octets} :
    (map key value b form label).write v = .ok p ↔
      ∃ (es : List (Value × (Value × Octets) × (Value × Octets)))
        (fs : List ((Value × Octets) × (Value × Octets))),
        v.mapItems form = .ok (es.map Prod.fst) ∧
        (∀ e ∈ es, e.1.unpair = .ok (e.2.1.1, e.2.2.1) ∧ key.write e.2.1.1 = .ok e.2.1.2 ∧
          value.write e.2.2.1 = .ok e.2.2.2) ∧
        fs.Perm (es.map Prod.snd) ∧ (fs.map (·.1.2)).Pairwise (· < ·) ∧
        b.admits fs.length = true ∧
        p = b.lengthPrefix fs.length ++ (fs.map fun e => e.1.2 ++ e.2.2).flatten := by
  rw [write]
  simp only [bind_eq_ok, pure_eq_ok, mapM_eq_ok, ascending_eq_ok, insideEntry_eq_ok]
  constructor
  · rintro ⟨_, hv, _, ⟨ps, rfl, rfl, hps⟩, _, ⟨hperm, hlt⟩, ⟨⟩, hn, _, ⟨qs, rfl, rfl, hqs⟩, rfl⟩
    -- the values were written in ascending order of the keys
    obtain ⟨fs, rfl, hfs⟩ := exists_eq_map
      (f := fun e : (Value × Octets) × (Value × Octets) =>
        ((e.1.2, e.1.1, e.2.1), e.1.2 ++ e.2.2))
      (P := fun e => value.write e.2.1 = .ok e.2.2)
      fun q hq => by
        obtain ⟨octets, ho, hq'⟩ := hqs q hq
        exact ⟨((q.1.2.1, q.1.1), (q.1.2.2, octets)), by rw [hq'], ho⟩
    rw [List.map_map] at hperm hlt
    obtain ⟨gs, hgs, hmap⟩ := exists_perm_of_perm_map hperm.symm
    have hlength : (ps.map Prod.fst).length = gs.length := by
      rw [List.length_map, ← List.length_map Prod.snd, hmap, List.length_map]
    have hzip := List.zip_of_prod rfl hmap
    rw [List.zip_map_right] at hzip
    refine ⟨(ps.map Prod.fst).zip gs, fs, ?_, ?_, ?_, ?_, ?_, ?_⟩
    · rwa [List.map_fst_zip (Nat.le_of_eq hlength)]
    · intro e he
      have hmem : (e.1, e.2.1.2, e.2.1.1, e.2.2.1) ∈ ps := by
        rw [hzip]
        exact List.mem_map_of_mem he
      obtain ⟨x, hx, octets, ho, hq⟩ := hps _ hmem
      simp only [Prod.mk.injEq] at hq
      obtain ⟨rfl, hk, hv⟩ := hq
      refine ⟨by rw [← hk, ← hv]; exact hx, by rw [← hk]; exact ho, ?_⟩
      exact hfs _ (hgs.mem_iff.1 (List.of_mem_zip he).2)
    · rw [List.map_snd_zip (Nat.le_of_eq hlength.symm)]
      exact hgs.symm
    · simpa [Function.comp_def] using hlt
    · simpa using checkEntries_eq_ok.1 hn
    · simp [Function.comp_def]
  · rintro ⟨es, fs, hv, hes, hperm, hlt, hn, rfl⟩
    refine ⟨_, hv, _, ⟨es.map fun e => (e.1, e.2.1.2, e.2.1.1, e.2.2.1), ?_, rfl, ?_⟩,
      fs.map fun e => (e.1.2, e.1.1, e.2.1), ⟨?_, ?_⟩, (), ?_, _,
      ⟨fs.map fun e => ((e.1.2, e.1.1, e.2.1), e.1.2 ++ e.2.2), ?_, rfl, ?_⟩, ?_⟩
    · simp [Function.comp_def]
    · intro q hq
      obtain ⟨e, he, rfl⟩ := List.mem_map.1 hq
      obtain ⟨hpair, hkey, -⟩ := hes e he
      exact ⟨_, hpair, _, hkey, rfl⟩
    · simpa [Function.comp_def] using hperm.map fun e => (e.1.2, e.1.1, e.2.1)
    · simpa [Function.comp_def] using hlt
    · simpa using checkEntries_eq_ok.2 hn
    · simp [Function.comp_def]
    · intro q hq
      obtain ⟨f, hf, rfl⟩ := List.mem_map.1 hq
      obtain ⟨e, he, rfl⟩ := List.mem_map.1 (hperm.mem_iff.1 hf)
      exact ⟨_, (hes e he).2.2, rfl⟩
    · simp [Function.comp_def]

/-! ## Composites -/

section

variable {v : Value} {p : Octets}

/-- An array is written when its items are, one behind the other. -/
theorem write_array_eq_ok {count : Nat} :
    (array item count).write v = .ok p ↔ ∃ vs parts, v.items? = some vs ∧ vs.length = count ∧
      vs.mapM (write item) = .ok parts ∧ p = parts.flatten := by
  rw [write, bind_eq_ok]
  constructor
  · rintro ⟨vs, hv, h⟩
    obtain ⟨hlength, h⟩ := unless_eq_ok.1 h
    obtain ⟨parts, hparts, h⟩ := bind_eq_ok.1 h
    exact ⟨vs, parts, Value.iterate_eq_ok.1 hv, Decidable.not_not.1 hlength,
      (mapM_zipIdx_eq_ok 0).1 hparts, (pure_eq_ok.1 h).symm⟩
  · rintro ⟨vs, parts, hv, hlength, hparts, rfl⟩
    refine ⟨vs, Value.iterate_eq_ok.2 hv, unless_eq_ok.2 ⟨fun hne => hne hlength, ?_⟩⟩
    exact bind_eq_ok.2 ⟨parts, (mapM_zipIdx_eq_ok 0).2 hparts, rfl⟩

/-- A tuple is written when it has an item for every position, and these are written. -/
theorem write_tuple_eq_ok {items : List Codec} :
    (tuple items).write v = .ok p ↔ ∃ vs, v.items? = some vs ∧ vs.length = items.length ∧
      writeItems items 0 vs = .ok p := by
  rw [write, bind_eq_ok]
  constructor
  · rintro ⟨vs, hv, h⟩
    obtain ⟨hlength, h⟩ := unless_eq_ok.1 h
    exact ⟨vs, Value.iterate_eq_ok.1 hv, Decidable.not_not.1 hlength, h⟩
  · rintro ⟨vs, hv, hlength, h⟩
    exact ⟨vs, Value.iterate_eq_ok.2 hv, unless_eq_ok.2 ⟨fun hne => hne hlength, h⟩⟩

/-- What is present is written behind a mark. -/
theorem write_some_eq_ok {inner : Codec} (hv : v ≠ .null) :
    (option inner).write v = .ok p ↔ ∃ q, inner.write v = .ok q ∧ p = 1 :: q := by
  rw [write]
  · simp only [bind_eq_ok, pure_eq_ok, @eq_comm _ p]
  · exact hv

/-- A tagged value is written under the first variant of its name. -/
theorem writeNamed_eq_ok {union variant : String} {variants : List (Nat × String × Codec)} :
    writeNamed union variant variants v = .ok p ↔ ∃ x q,
      (variants.find? fun x => x.2.1 = variant) = some x ∧ x.2.2.write v = .ok q ∧
        p = UInt8.ofNat x.1 :: q := by
  induction variants with
  | nil => simp [writeNamed]
  | cons x variants ih =>
    rw [writeNamed, List.find?_cons]
    by_cases hname : x.2.1 = variant
    · rw [if_pos hname, decide_eq_true hname]
      simp only [bind_eq_ok, inside_eq_ok, pure_eq_ok, Option.some.injEq, @eq_comm _ p]
      constructor
      · rintro ⟨q, hq⟩
        exact ⟨x, q, rfl, hq⟩
      · rintro ⟨_, q, rfl, hq⟩
        exact ⟨q, hq⟩
    · rw [if_neg hname, decide_eq_false hname]
      exact ih

/-- Any other value is written under the first variant that it says to be of. -/
theorem writeAccepted_iff_find? {union : String} {variants : List (Nat × String × Codec)} :
    writeAccepted union variants v = .ok p ↔ ∃ x q,
      (variants.find? fun x => x.2.2.accepts v) = some x ∧ x.2.2.write v = .ok q ∧
        p = UInt8.ofNat x.1 :: q := by
  induction variants with
  | nil => simp [writeAccepted]
  | cons x variants ih =>
    rw [writeAccepted, List.find?_cons]
    by_cases haccepts : x.2.2.accepts v = true
    · rw [if_pos haccepts, haccepts]
      simp only [bind_eq_ok, inside_eq_ok, pure_eq_ok, Option.some.injEq, @eq_comm _ p]
      constructor
      · rintro ⟨q, hq⟩
        exact ⟨x, q, rfl, hq⟩
      · rintro ⟨_, q, rfl, hq⟩
        exact ⟨q, hq⟩
    · rw [if_neg haccepts, Bool.eq_false_iff.2 haccepts]
      exact ih

/-- Items are written alike when they are at every position. -/
theorem writeItems_congr {items : List Codec} {xs : List (Value × Value)} {i : Nat}
    (h : ∀ y ∈ items.zip xs, ∀ p, y.1.write y.2.1 = .ok p ↔ y.1.write y.2.2 = .ok p) :
    writeItems items i (xs.map Prod.fst) = .ok p ↔ writeItems items i (xs.map Prod.snd) = .ok p := by
  induction items generalizing xs i p with
  | nil => simp [writeItems]
  | cons c items ih =>
    cases xs with
    | nil => rfl
    | cons x xs =>
      rw [List.zip_cons_cons, List.forall_mem_cons] at h
      rw [List.map_cons, List.map_cons, writeItems, writeItems]
      simp only [bind_eq_ok, inside_eq_ok, h.1, ih h.2]

/-- Fields are written alike when each of them is. -/
theorem writeFields_congr {fields : List (String × Codec)} {w : Value}
    (h : ∀ f ∈ fields, ∀ p, (do f.2.write (← v.field f.1)) = .ok p ↔
      (do f.2.write (← w.field f.1)) = .ok p) :
    writeFields fields v = .ok p ↔ writeFields fields w = .ok p := by
  induction fields generalizing p with
  | nil => rfl
  | cons f fields ih =>
    rw [List.forall_mem_cons] at h
    rw [writeFields, writeFields]
    simp only [bind_eq_ok, inside_eq_ok, ih h.2]
    simp only [bind_eq_ok] at h
    simp only [h.1]

end

end Codec

end StrictContract
