import StrictContract.Proofs.Codec.Plain
import StrictContract.Proofs.Codec.Unambiguous
import StrictContract.Proofs.TypeSystem.Founded
import StrictContract.Proofs.TypeSystem.Language
import StrictContract.TypeSystem.Checking

/-! # Canonical form under a type — what stored definitions describe is unambiguous

A stored definition describes a **regular** codec: all its parts are plain, their names are
different, and their values never coincide, because no part reads members, records or optional
values. So whatever is checked against an id of a grown type system is written as the bytes that it
was checked from, and whatever is written is checked again. -/

namespace StrictContract

namespace Codec

/-- A **regular** codec: plain, with different names, unambiguous, and of values that do not tell on
their own what they are of. -/
structure Regular (c : Codec) : Prop where
  plain : c.Plain
  distinct : c.Distinct
  unambiguous : c.Unambiguous
  bare : c.discriminated = false

/-- No codec overlaps with one of which the values do not tell on their own what they are of. -/
theorem overlaps_of_bare {c d : Codec} (hd : d.discriminated = false) : c.overlaps d = false := by
  unfold overlaps
  split <;> first | rfl | cases hd

section

variable {c : Codec} (h : c.Throughout Regular)

include h

/-- Regular codecs are checked. -/
theorem checked_of_regular : c.Throughout Checked := fun s hs => (h s hs).plain.checked

/-- Regular codecs are steady. -/
theorem steady_of_regular : c.Throughout Steady :=
  Throughout.steady fun s hs => (h s hs).plain

/-- Regular codecs reencode. -/
theorem reencodes_of_regular : Reencodes c :=
  reencodes_of_unambiguous (checked_of_regular h) (fun s hs => (h s hs).distinct)
    fun s hs => (h s hs).unambiguous

end

/-! ### The codecs that definitions describe -/

/-- A list of what is regular is regular. -/
theorem regular_list {item : Codec} (h : item.Throughout Regular) (b : Bounds)
    (label : Option String) : (list item b label).Throughout Regular :=
  .mk ⟨trivial, trivial, trivial, rfl⟩ (by simpa [children] using h)

/-- An array of what is regular is regular. -/
theorem regular_array {item : Codec} (h : item.Throughout Regular) (count : Nat) :
    (array item count).Throughout Regular :=
  .mk ⟨trivial, trivial, trivial, rfl⟩ (by simpa [children] using h)

/-- A set of which the elements stay in a sequence is regular. -/
theorem regular_set {item : Codec} (h : item.Throughout Regular) (b : Bounds)
    (label : Option String) : (set item b .sequence label).Throughout Regular :=
  .mk ⟨rfl, trivial, trivial, rfl⟩ (by simpa [children] using h)

/-- A map of which the entries stay pairs is regular. -/
theorem regular_map {key value : Codec} (hkey : key.Throughout Regular)
    (hvalue : value.Throughout Regular) (b : Bounds) (label : Option String) :
    (map key value b .pairs label).Throughout Regular :=
  .mk ⟨rfl, trivial, trivial, rfl⟩ (by simpa [children] using ⟨hkey, hvalue⟩)

/-- A tuple of what is regular is regular. -/
theorem regular_tuple {items : List Codec} (h : ∀ c ∈ items, c.Throughout Regular) :
    (tuple items).Throughout Regular :=
  .mk ⟨trivial, trivial, trivial, rfl⟩ h

/-- A struct with different names that is read as a mapping is regular. -/
theorem regular_struct {name : String} {fields : List (String × Codec)}
    (hnames : (fields.map Prod.fst).Nodup) (h : ∀ f ∈ fields, f.2.Throughout Regular) :
    (struct name fields .mapping false).Throughout Regular :=
  .mk ⟨⟨rfl, rfl⟩, ⟨hnames, nofun⟩, trivial, rfl⟩ (List.forall_mem_map.2 h)

/-- A union with different names and ascending tags is regular. -/
theorem regular_union {name : String} {variants : List (Nat × String × Codec)} (hne : variants ≠ [])
    (hnames : (variants.map fun x => x.2.1).Nodup) (hsmall : ∀ x ∈ variants, x.1 < 256)
    (hascend : variants.Pairwise fun x y => x.1 < y.1)
    (h : ∀ x ∈ variants, x.2.2.Throughout Regular) : (union name variants).Throughout Regular := by
  -- values of regular variants are tagged, so none is accepted in the place of another
  refine .mk ⟨⟨hsmall, hascend⟩, ⟨hne, hnames⟩, ?_, rfl⟩ (List.forall_mem_map.2 h)
  exact hascend.imp_of_mem fun {x y} _ hy _ => overlaps_of_bare (h y hy).self.bare

end Codec

namespace TypeSystem

open Codec

variable {ts : TypeSystem} {sid : SemId}

/-- The string codec that fields stand for is regular. -/
theorem regular_of_splitText? {fields : List (String × SemId)} {D : Codec}
    (h : ts.splitText? fields = .ok (some D)) : D.Throughout Regular := by
  unfold splitText? at h
  split at h
  · obtain ⟨tail, -, h⟩ := bind_eq_ok.1 h
    split at h
    · split at h
      · split at h
        · obtain ⟨b, -, h⟩ := bind_eq_ok.1 h
          cases h
          exact .scalar ⟨trivial, trivial, trivial, rfl⟩ rfl
        · cases h
      · cases h
    · cases h
  · cases h

/-- The union of units that the members of an enumeration describe is regular. -/
theorem regular_members {name : String} {members : List (String × Nat)}
    (hsound : TypeDef.Sound (.enumeration members)) :
    (union name ((members.map fun m => (m.2, m.1, Codec.unit)).mergeSort
      fun a b => decide (a.1 ≤ b.1))).Throughout Regular := by
  obtain ⟨hne, hnames, htags, hsmall⟩ := hsound
  have hperm := List.mergeSort_perm (members.map fun m => (m.2, m.1, Codec.unit))
    fun a b => decide (a.1 ≤ b.1)
  refine regular_union ?_ ?_ ?_ ?_ ?_
  · intro hnil
    rw [hnil] at hperm
    exact hne (List.map_eq_nil_iff.1 (List.nil_perm.1 hperm))
  · refine (hperm.map fun x => x.2.1).nodup_iff.2 ?_
    rw [List.map_map]
    exact hnames
  · intro x hx
    obtain ⟨m, hm, rfl⟩ := List.mem_map.1 (hperm.mem_iff.1 hx)
    exact hsmall m hm
  · refine pairwise_lt_mergeSort Prod.fst ?_
    rw [List.map_map]
    exact htags
  · intro x hx
    obtain ⟨m, hm, rfl⟩ := List.mem_map.1 (hperm.mem_iff.1 hx)
    exact .scalar ⟨trivial, trivial, trivial, rfl⟩ rfl

/-- The union that variants describe is regular if their parts are. -/
theorem regular_variants {name : String} {ps : List ((Nat × String × SemId) × (Nat × String × Codec))}
    (hsound : TypeDef.Sound (.union (ps.map Prod.fst)))
    (hps : ∀ q ∈ ps, q.2.1 = q.1.1 ∧ q.2.2.1 = q.1.2.1 ∧ q.2.2.2.Throughout Regular) :
    (union name (ps.map Prod.snd)).Throughout Regular := by
  obtain ⟨hne, hnames, hsmall, hascend⟩ := hsound
  refine regular_union (by simpa using hne) ?_ ?_ ?_ ?_
  · have hsame : (ps.map Prod.snd).map (fun x => x.2.1) = (ps.map Prod.fst).map fun x => x.2.1 := by
      rw [List.map_map, List.map_map]
      exact List.map_congr_left fun q hq => (hps q hq).2.1
    rwa [hsame]
  · refine List.forall_mem_map.2 fun q hq => ?_
    rw [(hps q hq).1]
    exact hsmall _ (List.mem_map_of_mem hq)
  · refine List.pairwise_map.2 ((List.pairwise_map.1 hascend).imp_of_mem ?_)
    intro q r hq hr hlt
    rwa [(hps q hq).1, (hps r hr).1]
  · exact List.forall_mem_map.2 fun q hq => (hps q hq).2.2

/-- The struct that fields describe is regular if their parts are. -/
theorem regular_fields {name : String} {ps : List ((String × SemId) × (String × Codec))}
    (hsound : TypeDef.Sound (.struct (ps.map Prod.fst)))
    (hps : ∀ q ∈ ps, q.2.1 = q.1.1 ∧ q.2.2.Throughout Regular) :
    (struct name (ps.map Prod.snd) .mapping false).Throughout Regular := by
  refine regular_struct ?_ (List.forall_mem_map.2 fun q hq => (hps q hq).2)
  have hsame : (ps.map Prod.snd).map Prod.fst = (ps.map Prod.fst).map Prod.fst := by
    rw [List.map_map, List.map_map]
    exact List.map_congr_left fun q hq => (hps q hq).1
  rw [hsame]
  exact hsound

/-- What a definition describes is regular if what it refers to is. -/
theorem WellFormed.regular_of_describeBy (h : ts.WellFormed) {part : SemId → Except Failure Codec}
    (hpart : ∀ ref C, part ref = .ok C → C.Throughout Regular) {D : Codec}
    (hD : ts.describeBy part sid = .ok D) : D.Throughout Regular := by
  obtain ⟨d, hd, hD⟩ := bind_eq_ok.1 hD
  have hsound := h.sound (find_eq_ok.1 hd)
  cases d with
  | primitive width =>
    cases hD
    split <;> exact .scalar ⟨trivial, trivial, trivial, rfl⟩ rfl
  | unicode =>
    cases hD
    exact .scalar ⟨trivial, trivial, trivial, rfl⟩ rfl
  | enumeration members =>
    cases hD
    exact regular_members hsound
  | union variants =>
    obtain ⟨xs, hxs, hD⟩ := bind_eq_ok.1 hD
    cases hD
    obtain ⟨ps, rfl, rfl, hps⟩ := mapM_eq_ok.1 hxs
    refine regular_variants hsound fun q hq => ?_
    obtain ⟨C, hC, hq⟩ := bind_eq_ok.1 (hps q hq)
    rw [← pure_eq_ok.1 hq]
    exact ⟨rfl, rfl, hpart _ _ hC⟩
  | tuple items =>
    obtain ⟨xs, hxs, hD⟩ := bind_eq_ok.1 hD
    cases hD
    obtain ⟨ps, -, rfl, hps⟩ := mapM_eq_ok.1 hxs
    exact regular_tuple (List.forall_mem_map.2 fun q hq => hpart _ _ (hps q hq))
  | struct fields =>
    obtain ⟨split?, hsplit, hD⟩ := bind_eq_ok.1 hD
    cases split? with
    | some c =>
      cases hD
      exact regular_of_splitText? hsplit
    | none =>
      obtain ⟨xs, hxs, hD⟩ := bind_eq_ok.1 hD
      cases hD
      obtain ⟨ps, rfl, rfl, hps⟩ := mapM_eq_ok.1 hxs
      refine regular_fields hsound fun q hq => ?_
      obtain ⟨C, hC, hq⟩ := bind_eq_ok.1 (hps q hq)
      rw [← pure_eq_ok.1 hq]
      exact ⟨rfl, hpart _ _ hC⟩
  | array item length =>
    obtain ⟨b, -, hD⟩ := bind_eq_ok.1 hD
    cases b with
    | true =>
      cases hD
      exact .scalar ⟨trivial, trivial, trivial, rfl⟩ rfl
    | false =>
      obtain ⟨C, hC, hD⟩ := bind_eq_ok.1 hD
      cases hD
      exact regular_array (hpart _ _ hC) _
  | list item min max =>
    dsimp only at hD
    split at hD
    · obtain ⟨b, -, hD⟩ := bind_eq_ok.1 hD
      cases hD
      exact .scalar ⟨trivial, trivial, trivial, rfl⟩ rfl
    · obtain ⟨byte, -, hD⟩ := bind_eq_ok.1 hD
      cases byte with
      | true =>
        obtain ⟨b, -, hD⟩ := bind_eq_ok.1 hD
        cases hD
        exact .scalar ⟨trivial, trivial, trivial, rfl⟩ rfl
      | false =>
        obtain ⟨C, hC, hD⟩ := bind_eq_ok.1 hD
        obtain ⟨b, -, hD⟩ := bind_eq_ok.1 hD
        cases hD
        exact regular_list (hpart _ _ hC) b none
  | set item min max =>
    obtain ⟨C, hC, hD⟩ := bind_eq_ok.1 hD
    obtain ⟨b, -, hD⟩ := bind_eq_ok.1 hD
    cases hD
    exact regular_set (hpart _ _ hC) b none
  | map key value min max =>
    obtain ⟨K, hK, hD⟩ := bind_eq_ok.1 hD
    obtain ⟨V, hV, hD⟩ := bind_eq_ok.1 hD
    obtain ⟨b, -, hD⟩ := bind_eq_ok.1 hD
    cases hD
    exact regular_map (hpart _ _ hK) (hpart _ _ hV) b none

/-- Every definition of a well-formed system describes a regular codec. -/
theorem WellFormed.regular (h : ts.WellFormed) {D : Codec} (hD : ts.codecOf sid = .ok D) :
    D.Throughout Regular := by
  suffices hdescribe : ∀ n sid D, ts.describe n sid = .ok D → D.Throughout Regular from
    hdescribe _ _ _ hD
  intro n
  induction n with
  | zero => nofun
  | succ n ih => exact fun sid D hD => h.regular_of_describeBy ih hD

/-- **Canonical form under a type.** Every id that a grown type system holds has a codec; what is
checked against the id is written as the bytes that it was checked from; and what is written for the
id and an intact value is checked as a value with the same bytes. -/
theorem check_canonical (h : Grown ts) (hsid : ts.contains sid = true) :
    (∃ D, ts.codecOf sid = .ok D) ∧
      (∀ p v, ts.check sid p = .ok v → ts.write sid v = .ok p) ∧
      ∀ v p, v.isIntact = true → ts.write sid v = .ok p →
        ∃ w, ts.check sid p = .ok w ∧ ts.write sid w = .ok p := by
  have hts := h.reachable.wellFormed
  obtain ⟨D, hD⟩ := hts.exists_codecOf (h.allFounded sid hsid)
  have hregular := hts.regular hD
  have hreencodes := reencodes_of_regular hregular
  have hcheck : ∀ p v, ts.check sid p = .ok v ↔ D.Encodes v p := by
    intro p v
    rw [check, hD]
    exact decode_eq_ok
  have hwrite : ∀ v, ts.write sid v = D.write v := by
    intro v
    rw [TypeSystem.write, hD]
    rfl
  refine ⟨⟨D, hD⟩, fun p v hv => ?_, fun v p hintact hv => ?_⟩
  · rw [hwrite]
    exact hreencodes ((hcheck p v).1 hv)
  · rw [hwrite] at hv
    have hchecked := checked_of_regular hregular
    obtain ⟨w, hw⟩ := exists_encodes_of_spells hchecked (steady_of_regular hregular) p
      (spells_of_write hchecked v p hintact hv)
    exact ⟨w, (hcheck p w).2 hw, by rw [hwrite]; exact hreencodes hw⟩

/-- The type of lists of truth values is checked and written in canonical form. -/
theorem check_canonical_list : ∃ sid ts, (Codec.list .bool .tiny none).derive empty = (.ok sid, ts) ∧
    (∃ D, ts.codecOf sid = .ok D) ∧
      (∀ p v, ts.check sid p = .ok v → ts.write sid v = .ok p) ∧
      ∀ v p, v.isIntact = true → ts.write sid v = .ok p →
        ∃ w, ts.check sid p = .ok w ∧ ts.write sid w = .ok p := by
  obtain ⟨sid, ts, hderive, -⟩ := exists_derive_list derive_bool_empty (by decide) .tiny none
  have hgrown : Grown ((Codec.list .bool .tiny none).derive empty).2 := .derive _ .empty
  rw [hderive] at hgrown
  exact ⟨sid, ts, hderive, check_canonical hgrown (contains_of_derive hderive)⟩

/-- The type of characters writes a surrogate, as bytes that are refused when they are checked. -/
theorem surrogate_written_not_checked : ∃ sid ts, Codec.unicode.derive empty = (.ok sid, ts) ∧
    Grown ts ∧ ts.contains sid = true ∧
      ts.write sid (.broken ⟨[], 0, []⟩) = .ok [0x00, 0xd8, 0x00, 0x00] ∧
      ∃ e, ts.check sid [0x00, 0xd8, 0x00, 0x00] = .error (.strict e) := by
  have hderive : Codec.unicode.derive empty = (.ok (Id.ofContent .sem [1]),
      ⟨[(Id.ofContent .sem [1], .unicode)]⟩) :=
    insert_empty (d := .unicode) .unicode [1] (toOption_eq_some.1 (by decide +kernel)) rfl
      (toOption_eq_some.1 (by decide +kernel)) rfl
  have hgrown : Grown (Codec.unicode.derive empty).2 := .derive _ .empty
  rw [hderive] at hgrown
  have hget : (⟨[(Id.ofContent .sem [1], .unicode)]⟩ : TypeSystem).get? (Id.ofContent .sem [1]) =
      some .unicode := by simp [get?]
  have hcodec : (⟨[(Id.ofContent .sem [1], .unicode)]⟩ : TypeSystem).codecOf (Id.ofContent .sem [1]) =
      .ok .unicode := codecOf_eq_ok.2 ⟨1, bind_eq_ok.2 ⟨_, find_eq_ok.2 hget, rfl⟩⟩
  refine ⟨_, _, hderive, hgrown, contains_of_derive hderive, ?_, ?_⟩
  · rw [TypeSystem.write, hcodec]
    rfl
  · rw [check_eq_decode hcodec]
    exact ⟨_, rfl⟩

end TypeSystem

end StrictContract
