import StrictContract.Proofs.Codec.Canonical

/-! # Readable values — what a codec gives back

A value is **readable** under a codec if some encoding is read as it. The values that a codec reads
have the shape that the codec describes: `Codec.Reads c f` states that all of them are images of
a function `f`, such as the function that gives the record of a structure. -/

namespace StrictContract.Codec

variable {α β : Type}

/-- A value is **readable** when it has an encoding. -/
def Readable (c : Codec) (v : Value) : Prop := ∃ p, c.Encodes v p

/-- A codec **reads** images of a function only. -/
def Reads (c : Codec) (f : α → Value) : Prop := ∀ v, c.Readable v → ∃ a, f a = v

attribute [local simp] Encodes EncodesItems EncodesFields EncodesVariant

/-! ## Scalars -/

theorem reads_uint (size : Nat) : Reads (uint size) .ofNat := by
  rintro v ⟨p, rfl, -⟩
  exact ⟨Octets.toNat p, rfl⟩

theorem reads_int_of_uint (size : Nat) : Reads (uint size) .int := by
  rintro v ⟨p, rfl, -⟩
  exact ⟨Octets.toNat p, rfl⟩

theorem reads_id (kind : IdKind) : Reads (id kind) (.id kind) := by
  rintro v ⟨p, x, rfl, -⟩
  exact ⟨x, rfl⟩

theorem reads_bytes (b : Bounds) (label : Option String) : Reads (bytes b label) .bytes := by
  rintro v ⟨p, octets, -, rfl, -⟩
  exact ⟨octets, rfl⟩

theorem reads_ascii (first rest : Charset) (b : Bounds) (label : Option String) :
    Reads (ascii first rest b label) .text := by
  rintro v ⟨p, cs, rfl, -⟩
  exact ⟨String.ofList cs, rfl⟩

/-- A readable number fits into its bytes. -/
theorem lt_of_readable_uint {size n : Nat} (h : (uint size).Readable (.ofNat n)) :
    n < Octets.span size := by
  obtain ⟨p, hn, rfl⟩ := h
  obtain rfl : n = Octets.toNat p := Int.ofNat.inj (Value.int.inj hn)
  exact Octets.toNat_lt p

/-! ## Collections -/

/-- What a list reads is a sequence of as many readable items as the bounds admit. -/
theorem readable_list {item : Codec} {b : Bounds} {label : Option String} {vs : List Value}
    (h : (list item b label).Readable (.tuple vs)) :
    b.admits vs.length = true ∧ ∀ v ∈ vs, item.Readable v := by
  obtain ⟨p, xs, hn, hxs, hv, -⟩ := h
  obtain rfl := Value.tuple.inj hv
  exact ⟨by rwa [List.length_map], List.forall_mem_map.2 fun x hx => ⟨_, hxs x hx⟩⟩

/-- What a map with keyed keys reads is a mapping of as many readable entries as the bounds admit. -/
theorem readable_mapping {key value : Codec} (hkey : Keyed key) {b : Bounds}
    {label : Option String} {vs : List (Value × Value)}
    (h : (map key value b .mapping label).Readable (.map vs)) :
    b.admits vs.length = true ∧ ∀ v ∈ vs, key.Readable v.1 ∧ value.Readable v.2 := by
  obtain ⟨p, h⟩ := h
  obtain ⟨es, hn, hes, -, hv, -⟩ := (encodes_mapping_iff hkey).1 h
  obtain rfl := Value.map.inj hv
  exact ⟨by rwa [List.length_map],
    List.forall_mem_map.2 fun e he => ⟨⟨_, (hes e he).1⟩, ⟨_, (hes e he).2⟩⟩⟩

/-- A list reads sequences of what its items read. -/
theorem reads_list {item : Codec} {f : α → Value} (hitem : Reads item f) (b : Bounds)
    (label : Option String) :
    Reads (list item b label) fun items : List α => .tuple (items.map f) := by
  rintro v ⟨p, xs, -, hxs, rfl, -⟩
  obtain ⟨items, hitems⟩ := exists_map_eq (List.forall_mem_map.2 fun x hx => hitem _ ⟨_, hxs x hx⟩)
  exact ⟨items, congrArg Value.tuple hitems⟩

/-- A set reads sets of what its elements read. -/
theorem reads_set {item : Codec} (hkey : Keyed item) {f : α → Value} (hitem : Reads item f)
    (b : Bounds) (label : Option String) :
    Reads (set item b .members label) fun items : List α => .set (items.map f) := by
  rintro v ⟨p, hv⟩
  obtain ⟨xs, -, hxs, -, rfl, -⟩ := (encodes_set_iff hkey).1 hv
  obtain ⟨items, hitems⟩ := exists_map_eq (List.forall_mem_map.2 fun x hx => hitem _ ⟨_, hxs x hx⟩)
  exact ⟨items, congrArg Value.set hitems⟩

/-- A value **precedes** another under a codec when its encoding comes first. -/
def Precedes (c : Codec) (v w : Value) : Prop := ∃ p q, c.Encodes v p ∧ c.Encodes w q ∧ p < q

/-- Under a canonical codec no value precedes itself. -/
theorem Precedes.ne {c : Codec} (hc : Canonical c) {v w : Value} (h : c.Precedes v w) : v ≠ w := by
  rintro rfl
  obtain ⟨p, q, hp, hq, hlt⟩ := h
  rw [hc.separates hp hq (.refl v)] at hlt
  exact List.lt_irrefl _ hlt

/-- A map reads mappings of what its keys and values read, in the order of the keys. -/
theorem exists_mapping {key value : Codec} (hkey : Keyed key) {f : α → Value} (hkeys : Reads key f)
    {g : β → Value} (hvalues : Reads value g) {b : Bounds} {label : Option String} {v : Value}
    (hv : (map key value b .mapping label).Readable v) :
    ∃ entries : List (α × β), v = .map (entries.map fun e => (f e.1, g e.2)) ∧
      entries.Pairwise fun a b => key.Precedes (f a.1) (f b.1) := by
  obtain ⟨p, hv⟩ := hv
  obtain ⟨es, -, hes, hlt, rfl, -⟩ := (encodes_mapping_iff hkey).1 hv
  obtain ⟨entries, hentries⟩ := exists_map_eq (f := fun e : α × β => (f e.1, g e.2))
    (List.forall_mem_map.2 fun e he => by
      obtain ⟨k, hk⟩ := hkeys _ ⟨_, (hes e he).1⟩
      obtain ⟨x, hx⟩ := hvalues _ ⟨_, (hes e he).2⟩
      exact ⟨(k, x), by rw [hk, hx]⟩)
  refine ⟨entries, by rw [hentries], ?_⟩
  have hprecedes : (es.map fun e => (e.1.1, e.2.1)).Pairwise fun x y => key.Precedes x.1 y.1 :=
    List.pairwise_map.2 ((List.pairwise_map.1 hlt).imp_of_mem fun {e e'} he he' hlt =>
      ⟨_, _, (hes e he).1, (hes e' he').1, hlt⟩)
  rw [← hentries, List.pairwise_map] at hprecedes
  exact hprecedes

/-- The keys of a mapping that is read are all different. -/
theorem nodup_of_precedes {key : Codec} (hcanonical : Canonical key) {f : α → Value}
    {entries : List (α × β)} (h : entries.Pairwise fun a b => key.Precedes (f a.1) (f b.1)) :
    (entries.map Prod.fst).Nodup :=
  List.pairwise_map.2 (h.imp fun hab heq => hab.ne hcanonical (by rw [heq]))

/-! ## Composites -/

/-- An optional value reads null and what its codec reads. -/
theorem reads_option {inner : Codec} {f : α → Value} (hinner : Reads inner f) :
    Reads (option inner) (Value.ofOption f) := by
  rintro v ⟨p, ⟨rfl, -⟩ | ⟨q, -, hv⟩⟩
  · exact ⟨none, rfl⟩
  · obtain ⟨a, rfl⟩ := hinner v ⟨q, hv⟩
    exact ⟨some a, rfl⟩

/-- Fields are **readable** when they have encodings one after another. -/
def ReadableFields (fields : List (String × Codec)) (vs : List (String × Value)) : Prop :=
  ∃ p, EncodesFields fields vs p

theorem readableFields_nil {vs : List (String × Value)} : ReadableFields [] vs ↔ vs = [] := by
  constructor
  · rintro ⟨p, rfl, -⟩
    rfl
  · rintro rfl
    exact ⟨[], rfl, rfl⟩

theorem readableFields_cons {name : String} {c : Codec} {fields : List (String × Codec)}
    {vs : List (String × Value)} :
    ReadableFields ((name, c) :: fields) vs ↔
      ∃ v, c.Readable v ∧ ∃ ws, ReadableFields fields ws ∧ (name, v) :: ws = vs := by
  constructor
  · rintro ⟨_, v, ws, q, t, rfl, rfl, hv, hws⟩
    exact ⟨v, ⟨q, hv⟩, ws, ⟨t, hws⟩, rfl⟩
  · rintro ⟨v, ⟨q, hv⟩, ws, ⟨t, hws⟩, rfl⟩
    exact ⟨q ++ t, v, ws, q, t, rfl, rfl, hv, hws⟩

/-- Every field of readable fields has a readable value. -/
theorem ReadableFields.exists_mem {fields : List (String × Codec)} {vs : List (String × Value)}
    (h : ReadableFields fields vs) {f : String × Codec} (hf : f ∈ fields) :
    ∃ v, (f.1, v) ∈ vs ∧ f.2.Readable v := by
  induction fields generalizing vs with
  | nil => cases hf
  | cons g fields ih =>
    obtain ⟨v, hv, ws, hws, rfl⟩ := readableFields_cons.1 h
    rcases List.mem_cons.1 hf with rfl | hf
    · exact ⟨v, List.mem_cons_self .., hv⟩
    · obtain ⟨w, hw, hreadable⟩ := ih hws hf
      exact ⟨w, List.mem_cons_of_mem _ hw, hreadable⟩

/-- The readable records of a type of this library. -/
theorem readable_record {name type : String} {fields : List (String × Codec)} {wrapped : Bool}
    {v : Value} :
    (struct name fields (.record type) wrapped).Readable v ↔
      ∃ vs, ReadableFields fields vs ∧ .record type vs = v := by
  constructor
  · rintro ⟨p, h⟩
    obtain ⟨vs, hvs, rfl⟩ := encodes_record_iff.1 h
    exact ⟨vs, ⟨p, hvs⟩, rfl⟩
  · rintro ⟨vs, ⟨p, hvs⟩, rfl⟩
    exact ⟨p, encodes_record_iff.2 ⟨vs, hvs, rfl⟩⟩

/-- Every field of a readable record is there with a readable value. -/
theorem exists_readable_field {name type type' : String} {fields : List (String × Codec)}
    {wrapped : Bool} {vs : List (String × Value)}
    (h : (struct name fields (.record type) wrapped).Readable (.record type' vs))
    {f : String × Codec} (hf : f ∈ fields) : ∃ v, (f.1, v) ∈ vs ∧ f.2.Readable v := by
  obtain ⟨ws, hws, hrecord⟩ := readable_record.1 h
  obtain ⟨-, rfl⟩ := Value.record.inj hrecord
  exact hws.exists_mem hf

/-- A union of records reads what its variants read. -/
theorem readable_union {name : String} {variants : List (Nat × String × Codec)}
    (h : RecordVariants variants) {v : Value} :
    (union name variants).Readable v ↔ ∃ x ∈ variants, x.2.2.Readable v := by
  constructor
  · rintro ⟨p, tag, q, rfl, hv⟩
    obtain ⟨x, hx, -, hv⟩ := h.encodesVariant_iff.1 hv
    exact ⟨x, hx, q, hv⟩
  · rintro ⟨x, hx, q, hv⟩
    refine ⟨_, UInt8.ofNat x.1, q, rfl, h.encodesVariant_iff.2 ⟨x, hx, ?_, hv⟩⟩
    simp [Nat.mod_eq_of_lt (h.small x hx)]

end StrictContract.Codec
