import StrictContract.Proofs.Codec.Canonical

/-! # Written values — whether there is an encoding at all

A value is **written** under a codec when it has an encoding. That is a question of its parts only: of
what order sets and mappings are sorted into, and of what the bytes are, nothing has to be known. -/

namespace StrictContract.Codec

/-- A value is **written** when it has an encoding. -/
def Written (c : Codec) (v : Value) : Prop := ∃ p, c.write v = .ok p

variable {item key value : Codec} {b : Bounds} {label : Option String}

/-- An id is written as its bytes. -/
theorem write_id (kind : IdKind) (x : Id kind) : (id kind).write (.id kind x) = .ok x.octets :=
  (canonical_id kind).write_eq_ok ⟨x, rfl, rfl⟩

theorem written_id (kind : IdKind) (x : Id kind) : (id kind).Written (.id kind x) := ⟨_, write_id kind x⟩

/-- A natural number that the bytes can hold is written as these bytes. -/
theorem write_ofNat {size n : Nat} (h : n < Octets.span size) :
    (uint size).write (.ofNat n) = .ok (Octets.ofNat size n) :=
  (canonical_uint size).write_eq_ok ⟨by rw [Octets.toNat_ofNat h]; rfl, Octets.length_ofNat ..⟩

theorem written_ofNat {size n : Nat} (h : n < Octets.span size) : (uint size).Written (.ofNat n) :=
  ⟨_, write_ofNat h⟩

/-! ## Collections -/

/-- A list is written when its items are, as many as the bounds admit. -/
theorem written_list_iff {vs : List Value} : (list item b label).Written (.tuple vs) ↔
    b.admits vs.length = true ∧ ∀ v ∈ vs, item.Written v := by
  constructor
  · rintro ⟨p, hp⟩
    obtain ⟨xs, hvs, hn, hxs, -⟩ := write_list_eq_ok.1 hp
    obtain rfl := Option.some.inj hvs
    exact ⟨by rwa [List.length_map], List.forall_mem_map.2 fun x hx => ⟨x.2, hxs x hx⟩⟩
  · rintro ⟨hn, hvs⟩
    obtain ⟨xs, rfl, hxs⟩ := exists_eq_map (f := fun x : Value × Octets => x.1)
      (P := fun x => item.write x.1 = .ok x.2) fun v hv => (hvs v hv).imp' (v, ·) fun p hp => ⟨rfl, hp⟩
    rw [List.length_map] at hn
    exact ⟨_, write_list_eq_ok.2 ⟨xs, rfl, hn, hxs, rfl⟩⟩

/-- A set is written when its elements are, and no two of them as the same bytes. -/
theorem written_set {form : SetForm} {vs : List Value} (hn : b.admits vs.length = true)
    (hvs : ∀ v ∈ vs, item.Written v) (hne : vs.Pairwise fun v w => item.write v ≠ item.write w) :
    (set item b form label).Written (.set vs) := by
  obtain ⟨xs, rfl, hxs⟩ := exists_eq_map (f := fun x : Value × Octets => x.1)
    (P := fun x => item.write x.1 = .ok x.2) fun v hv => (hvs v hv).imp' (v, ·) fun p hp => ⟨rfl, hp⟩
  have hnodup : (xs.map Prod.snd).Nodup := by
    refine List.pairwise_map.2 ((List.pairwise_map.1 hne).imp_of_mem fun {x y} hx hy hxy heq => hxy ?_)
    rw [hxs x hx, hxs y hy, heq]
  have hperm := List.mergeSort_perm xs fun x y => decide (x.2 ≤ y.2)
  rw [List.length_map, ← hperm.length_eq] at hn
  exact ⟨_, write_set_eq_ok.2 ⟨xs, _, rfl, hxs, hperm,
    List.pairwise_map.2 (pairwise_lt_mergeSort Prod.snd hnodup), hn, rfl⟩⟩

/-- The elements of a set that is written are written, and as many as the bounds admit. -/
theorem written_of_set {form : SetForm} {vs : List Value}
    (h : (set item b form label).Written (.set vs)) :
    b.admits vs.length = true ∧ ∀ v ∈ vs, item.Written v := by
  obtain ⟨p, hp⟩ := h
  obtain ⟨xs, ys, hvs, hxs, hperm, -, hn, -⟩ := write_set_eq_ok.1 hp
  obtain rfl := Option.some.inj hvs
  rw [List.length_map, ← hperm.length_eq]
  exact ⟨hn, List.forall_mem_map.2 fun x hx => ⟨x.2, hxs x hx⟩⟩

/-- A mapping is written when its keys and values are, and no two keys as the same bytes. -/
theorem written_mapping {entries : List (Value × Value)} (hn : b.admits entries.length = true)
    (hentries : ∀ e ∈ entries, key.Written e.1 ∧ value.Written e.2)
    (hne : entries.Pairwise fun d e => key.write d.1 ≠ key.write e.1) :
    (map key value b .mapping label).Written (.map entries) := by
  obtain ⟨es, rfl, hes⟩ := exists_eq_map
    (f := fun e : (Value × Octets) × (Value × Octets) => (e.1.1, e.2.1))
    (P := fun e => key.write e.1.1 = .ok e.1.2 ∧ value.write e.2.1 = .ok e.2.2) fun e he => by
      obtain ⟨⟨p, hp⟩, q, hq⟩ := hentries e he
      exact ⟨((e.1, p), (e.2, q)), rfl, hp, hq⟩
  have hnodup : (es.map fun e => e.1.2).Nodup := by
    refine List.pairwise_map.2 ((List.pairwise_map.1 hne).imp_of_mem fun {d e} hd he hde heq => hde ?_)
    rw [(hes d hd).1, (hes e he).1, heq]
  have hperm := List.mergeSort_perm es fun d e => decide (d.1.2 ≤ e.1.2)
  rw [List.length_map, ← hperm.length_eq] at hn
  exact ⟨_, write_mapping_eq_ok.2 ⟨es, _, rfl, hes, hperm,
    List.pairwise_map.2 (pairwise_lt_mergeSort (fun e : (Value × Octets) × (Value × Octets) => e.1.2)
      hnodup), hn, rfl⟩⟩

/-- The keys and values of a mapping that is written are written. -/
theorem written_of_mapping {entries : List (Value × Value)}
    (h : (map key value b .mapping label).Written (.map entries)) :
    ∀ e ∈ entries, key.Written e.1 ∧ value.Written e.2 := by
  obtain ⟨p, hp⟩ := h
  obtain ⟨es, fs, rfl, hes, -⟩ := write_mapping_eq_ok.1 hp
  exact List.forall_mem_map.2 fun e he => ⟨⟨_, (hes e he).1⟩, _, (hes e he).2⟩

theorem written_set_singleton {v : Value} (hn : b.admits 1 = true) (hv : item.Written v) :
    (set item b .members label).Written (.set [v]) :=
  written_set hn (List.forall_mem_singleton.2 hv) (List.pairwise_singleton ..)

theorem written_mapping_nil (hb : b.min = 0) : (map key value b .mapping label).Written (.map []) :=
  ⟨_, write_mapping_nil hb⟩

theorem written_mapping_singleton {k v : Value} (hn : b.admits 1 = true) (hk : key.Written k)
    (hv : value.Written v) : (map key value b .mapping label).Written (.map [(k, v)]) :=
  written_mapping hn (List.forall_mem_singleton.2 ⟨hk, hv⟩) (List.pairwise_singleton ..)

/-! ## Composites -/

/-- Fields that are written one by one. -/
def WrittenFields : List (String × Codec) → List (String × Value) → Prop
  | [], _ => True
  | _ :: _, [] => False
  | f :: fields, x :: vs => f.2.Written x.2 ∧ WrittenFields fields vs

theorem exists_writeFields_iff {fields : List (String × Codec)} {vs : List (String × Value)} {v : Value}
    (hnames : vs.map Prod.fst = fields.map Prod.fst) (hv : ∀ x ∈ vs, v.field x.1 = .ok x.2) :
    (∃ p, writeFields fields v = .ok p) ↔ WrittenFields fields vs := by
  induction fields generalizing vs with
  | nil => exact iff_of_true ⟨[], rfl⟩ trivial
  | cons f fields ih =>
    cases vs with
    | nil => cases hnames
    | cons x vs =>
      obtain ⟨hname, hnames⟩ := List.cons.inj hnames
      rw [List.forall_mem_cons] at hv
      rw [WrittenFields, ← ih hnames hv.2, writeFields, ← hname, hv.1]
      simp only [bind_eq_ok, pure_eq_ok, inside_eq_ok, Written]
      constructor
      · rintro ⟨_, p, ⟨_, hx, hp⟩, q, hq, rfl⟩
        cases hx
        exact ⟨⟨p, hp⟩, q, hq⟩
      · rintro ⟨⟨p, hp⟩, q, hq⟩
        exact ⟨_, p, ⟨_, rfl, hp⟩, q, hq, rfl⟩

/-- A record is written when its fields are. -/
theorem written_record_iff {name type : String} {fields : List (String × Codec)} {wrapped : Bool}
    {vs : List (String × Value)} (hnodup : (fields.map Prod.fst).Nodup)
    (hnames : vs.map Prod.fst = fields.map Prod.fst) :
    (struct name fields (.record type) wrapped).Written (.record type vs) ↔ WrittenFields fields vs := by
  rw [Written, write_record]
  exact exists_writeFields_iff hnames fun x hx => field_record (hnames ▸ hnodup) hx

/-- A record is written by a union of records when it is by the variant of its type. -/
theorem written_union {name type : String} {variants : List (Nat × String × Codec)}
    {vs : List (String × Value)} (h : RecordVariants variants) {x : Nat × String × Codec}
    (hx : x ∈ variants) (htype : recordType? x.2.2 = some type)
    (hwritten : x.2.2.Written (.record type vs)) : (union name variants).Written (.record type vs) := by
  obtain ⟨p, hp⟩ := hwritten
  rw [Written, write_union_record]
  exact ⟨_, h.writeAccepted_eq_ok.2 ⟨x, hx, htype, p, hp, rfl⟩⟩

end StrictContract.Codec
