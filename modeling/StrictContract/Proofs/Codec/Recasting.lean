import StrictContract.Proofs.Codec.Core

/-! # Recasting — the values of one codec as those of another

A codec is **recast** as another one along a relation if the other one reads, from the same bytes,
values that the relation pairs with those of the first. Composites are recast part by part. The codecs of
byte strings and strings are recast as the sequences that they stand for: a byte string as the numbers of
its bytes, a string as its characters. The length prefix is the same on both sides, since the bounds of a
string count the characters behind its head. -/

namespace StrictContract.Codec

/-- A codec is **recast** as another one if that reads related values from the same bytes. -/
def Recasts (R : Value → Value → Prop) (c d : Codec) : Prop :=
  ∀ v p, c.Encodes v p → ∃ w, d.Encodes w p ∧ R v w

/-- Sequences of related items. -/
def Itemwise (R : Value → Value → Prop) (v w : Value) : Prop :=
  ∃ xs : List (Value × Value), (∀ x ∈ xs, R x.1 x.2) ∧ v = .tuple (xs.map Prod.fst) ∧
    w = .tuple (xs.map Prod.snd)

/-- Sequences of pairs of a key and a value, both related. -/
def Entrywise (K V : Value → Value → Prop) (v w : Value) : Prop :=
  ∃ es : List ((Value × Value) × (Value × Value)), (∀ e ∈ es, K e.1.1 e.1.2 ∧ V e.2.1 e.2.2) ∧
    v = .tuple (es.map fun e => .tuple [e.1.1, e.2.1]) ∧
    w = .tuple (es.map fun e => .tuple [e.1.2, e.2.2])

/-! ## Sequences -/

section

variable {R : Value → Value → Prop} {item item' : Codec} (h : Recasts R item item')

include h

/-- The pieces that items were read from are read as related items. -/
theorem Recasts.pieces {xs : List (Value × Octets)} (hxs : ∀ x ∈ xs, item.Encodes x.1 x.2) :
    ∃ ys : List (Value × Octets), ys.length = xs.length ∧ xs.map Prod.snd = ys.map Prod.snd ∧
      (∀ y ∈ ys, item'.Encodes y.1 y.2) ∧
      Itemwise R (.tuple (xs.map Prod.fst)) (.tuple (ys.map Prod.fst)) := by
  obtain ⟨zs, rfl, hzs⟩ := exists_eq_map (f := fun z : Value × Value × Octets => (z.1, z.2.2))
    (P := fun z => item'.Encodes z.2.1 z.2.2 ∧ R z.1 z.2.1) fun x hx => by
      obtain ⟨w, hw, hR⟩ := h x.1 x.2 (hxs x hx)
      exact ⟨(x.1, w, x.2), rfl, hw, hR⟩
  refine ⟨zs.map Prod.snd, by rw [List.length_map, List.length_map],
    by rw [List.map_map, List.map_map]; rfl, List.forall_mem_map.2 fun z hz => (hzs z hz).1,
    zs.map fun z => (z.1, z.2.1), List.forall_mem_map.2 fun z hz => (hzs z hz).2, ?_, ?_⟩
  · rw [List.map_map, List.map_map]; rfl
  · rw [List.map_map, List.map_map]; rfl

/-- Lists are recast item by item. -/
theorem Recasts.list (b : Bounds) (label label' : Option String) :
    Recasts (Itemwise R) (list item b label) (list item' b label') := by
  intro v p hv
  rw [Encodes] at hv
  obtain ⟨xs, hn, hxs, rfl, rfl⟩ := hv
  obtain ⟨ys, hlength, hbytes, hys, hitems⟩ := h.pieces hxs
  rw [hbytes, ← hlength]
  exact ⟨_, by rw [Encodes]; exact ⟨ys, by rwa [hlength], hys, rfl, rfl⟩, hitems⟩

/-- Arrays are recast item by item. -/
theorem Recasts.array (count : Nat) :
    Recasts (Itemwise R) (array item count) (array item' count) := by
  intro v p hv
  rw [Encodes] at hv
  obtain ⟨xs, hn, hxs, rfl, rfl⟩ := hv
  obtain ⟨ys, hlength, hbytes, hys, hitems⟩ := h.pieces hxs
  rw [hbytes]
  exact ⟨_, by rw [Encodes]; exact ⟨ys, hlength.trans hn, hys, rfl, rfl⟩, hitems⟩

/-- Sets in canonical order are recast element by element. -/
theorem Recasts.set (b : Bounds) (label label' : Option String) :
    Recasts (Itemwise R) (set item b .sequence label) (set item' b .sequence label') := by
  intro v p hv
  rw [Encodes] at hv
  obtain ⟨xs, hn, hxs, hlt, ⟨⟩, rfl⟩ := hv
  obtain ⟨ys, hlength, hbytes, hys, hitems⟩ := h.pieces hxs
  rw [hbytes] at hlt ⊢
  rw [← hlength]
  exact ⟨_, by rw [Encodes]; exact ⟨ys, by rwa [hlength], hys, hlt, rfl, rfl⟩, hitems⟩

/-- Maps in canonical order are recast entry by entry, if the keys have labels. -/
theorem Recasts.map {V : Value → Value → Prop} {value value' : Codec} (hvalue : Recasts V value value')
    (hlabel : ∀ k p, item'.Encodes k p → k.HasLabel) (b : Bounds) (label label' : Option String) :
    Recasts (Entrywise R V) (map item value b .pairs label) (map item' value' b .pairs label') := by
  intro v p hv
  rw [Encodes] at hv
  obtain ⟨es, hn, hes, hlt, ⟨⟩, rfl⟩ := hv
  obtain ⟨fs, rfl, hfs⟩ := exists_eq_map
    (f := fun f : (Value × Value × Octets) × (Value × Value × Octets) =>
      ((f.1.1, f.1.2.2), (f.2.1, f.2.2.2)))
    (P := fun f => (item'.Encodes f.1.2.1 f.1.2.2 ∧ R f.1.1 f.1.2.1) ∧
      value'.Encodes f.2.2.1 f.2.2.2 ∧ V f.2.1 f.2.2.1) fun e he => by
      obtain ⟨hk, -, hx⟩ := hes e he
      obtain ⟨k, hk, hR⟩ := h _ _ hk
      obtain ⟨x, hx, hV⟩ := hvalue _ _ hx
      exact ⟨((e.1.1, k, e.1.2), (e.2.1, x, e.2.2)), rfl, ⟨hk, hR⟩, hx, hV⟩
  rw [List.length_map] at hn
  refine ⟨.tuple (fs.map fun f => .tuple [f.1.2.1, f.2.2.1]), ?_,
    fs.map fun f => ((f.1.1, f.1.2.1), (f.2.1, f.2.2.1)), ?_, ?_, ?_⟩
  · rw [Encodes]
    refine ⟨fs.map fun f => (f.1.2, f.2.2), by rwa [List.length_map], ?_, ?_, ?_, ?_⟩
    · exact List.forall_mem_map.2 fun f hf =>
        ⟨(hfs f hf).1.1, hlabel _ _ (hfs f hf).1.1, (hfs f hf).2.1⟩
    · simpa [Function.comp_def] using hlt
    · simp [MapForm.value, Function.comp_def]
    · simp [Function.comp_def]
  · exact List.forall_mem_map.2 fun f hf => ⟨(hfs f hf).1.2, (hfs f hf).2.2⟩
  · simp [Function.comp_def]
  · simp [Function.comp_def]

end

/-! ## Composites -/

section

variable {α : Type} (tag : α → Nat) (name : α → String) {f g : α → Codec}
  {R : α → Value → Value → Prop} {xs : List α} (h : ∀ x ∈ xs, Recasts (R x) (f x) (g x))

include h

/-- What is read item by item is read as related items. -/
theorem exists_recast_items {vs : List Value} {p : Octets} (hvs : EncodesItems (xs.map f) vs p) :
    ∃ ys : List (α × Value × Value), xs = ys.map Prod.fst ∧ vs = ys.map (·.2.1) ∧
      EncodesItems (xs.map g) (ys.map (·.2.2)) p ∧ ∀ y ∈ ys, R y.1 y.2.1 y.2.2 := by
  induction xs generalizing vs p with
  | nil =>
    obtain ⟨rfl, rfl⟩ := hvs
    exact ⟨[], rfl, rfl, ⟨rfl, rfl⟩, nofun⟩
  | cons x xs ih =>
    rw [List.forall_mem_cons] at h
    obtain ⟨v, ws, q, t, rfl, rfl, hv, hws⟩ := hvs
    obtain ⟨w, hw, hR⟩ := h.1 v q hv
    obtain ⟨ys, rfl, rfl, hys, hRs⟩ := ih h.2 hws
    exact ⟨(x, v, w) :: ys, rfl, rfl, ⟨w, _, q, t, rfl, rfl, hw, hys⟩,
      List.forall_mem_cons.2 ⟨hR, hRs⟩⟩

/-- What is read field by field is read as related fields. -/
theorem exists_recast_fields {vs : List (String × Value)} {p : Octets}
    (hvs : EncodesFields (xs.map fun x => (name x, f x)) vs p) :
    ∃ ys : List (α × Value × Value), xs = ys.map Prod.fst ∧ vs = ys.map (fun y => (name y.1, y.2.1)) ∧
      EncodesFields (xs.map fun x => (name x, g x)) (ys.map fun y => (name y.1, y.2.2)) p ∧
      ∀ y ∈ ys, R y.1 y.2.1 y.2.2 := by
  induction xs generalizing vs p with
  | nil =>
    obtain ⟨rfl, rfl⟩ := hvs
    exact ⟨[], rfl, rfl, ⟨rfl, rfl⟩, nofun⟩
  | cons x xs ih =>
    rw [List.forall_mem_cons] at h
    obtain ⟨v, ws, q, t, rfl, rfl, hv, hws⟩ := hvs
    obtain ⟨w, hw, hR⟩ := h.1 v q hv
    obtain ⟨ys, rfl, rfl, hys, hRs⟩ := ih h.2 hws
    exact ⟨(x, v, w) :: ys, rfl, rfl, ⟨w, _, q, t, rfl, rfl, hw, hys⟩,
      List.forall_mem_cons.2 ⟨hR, hRs⟩⟩

/-- What is read as a variant is read as the same variant of a related payload. -/
theorem exists_recast_variant {t : Nat} (hf : ∀ x ∈ xs, (f x).discriminated = false)
    (hg : ∀ x ∈ xs, (g x).discriminated = false) {v : Value} {p : Octets}
    (hv : EncodesVariant t (xs.map fun x => (tag x, name x, f x)) v p) :
    ∃ x ∈ xs, ∃ v' w, v = .tagged (name x) v' ∧ R x v' w ∧
      EncodesVariant t (xs.map fun x => (tag x, name x, g x)) (.tagged (name x) w) p := by
  induction xs with
  | nil => exact hv.elim
  | cons x xs ih =>
    rw [List.forall_mem_cons] at h hf hg
    rw [List.map_cons, EncodesVariant] at hv
    rw [List.map_cons]
    split at hv
    · rename_i ht
      obtain ⟨v', hv', rfl⟩ := hv
      obtain ⟨w, hw, hR⟩ := h.1 v' p hv'
      refine ⟨x, List.mem_cons_self .., v', w, by simp [hf.1], hR, ?_⟩
      rw [EncodesVariant, if_pos ht]
      exact ⟨w, hw, by simp [hg.1]⟩
    · rename_i ht
      obtain ⟨y, hy, v', w, rfl, hR, hw⟩ := ih h.2 hf.2 hg.2 hv
      refine ⟨y, List.mem_cons_of_mem x hy, v', w, rfl, hR, ?_⟩
      rwa [EncodesVariant, if_neg ht]

end

/-- Unions are spelled alike when their payloads are. -/
theorem spells_union_congr {α : Type} {xs : List α} {tag : α → Nat} {name : α → String} {f g : α → Codec}
    (h : ∀ x ∈ xs, ∀ p, (f x).Spells p ↔ (g x).Spells p) {union union' : String} {p : Octets} :
    (Codec.union union (xs.map fun x => (tag x, name x, f x))).Spells p ↔
      (Codec.union union' (xs.map fun x => (tag x, name x, g x))).Spells p := by
  rw [spells_union, spells_union]
  constructor
  · rintro ⟨t, q, rfl, _, hy, ht, hq⟩
    obtain ⟨x, hx, rfl⟩ := List.mem_map.1 hy
    exact ⟨t, q, rfl, _, List.mem_map_of_mem hx, ht, (h x hx q).1 hq⟩
  · rintro ⟨t, q, rfl, _, hy, ht, hq⟩
    obtain ⟨x, hx, rfl⟩ := List.mem_map.1 hy
    exact ⟨t, q, rfl, _, List.mem_map_of_mem hx, ht, (h x hx q).2 hq⟩

/-- A payload is read under the tag of its variant, if no two variants have one tag. -/
theorem EncodesVariant.of_mem {variants : List (Nat × String × Codec)}
    (htags : (variants.map Prod.fst).Nodup) {x : Nat × String × Codec} (hx : x ∈ variants)
    (hbare : x.2.2.discriminated = false) {v : Value} {p : Octets} (hv : x.2.2.Encodes v p) :
    EncodesVariant x.1 variants (.tagged x.2.1 v) p := by
  induction variants with
  | nil => cases hx
  | cons y variants ih =>
    rw [List.map_cons, List.nodup_cons] at htags
    rw [EncodesVariant]
    rcases List.mem_cons.1 hx with rfl | hx
    · rw [if_pos rfl]
      exact ⟨v, hv, by simp [hbare]⟩
    · have hne : y.1 ≠ x.1 := fun h => htags.1 (h ▸ List.mem_map_of_mem hx)
      rw [if_neg hne]
      exact ih htags.2 hx

/-! ## Byte strings -/

/-- The numbers of some bytes, as a sequence. -/
def byteValues (octets : Octets) : Value := .tuple (octets.map fun b => .int b.toNat)

/-- Every byte is read as its number. -/
theorem encodes_bytes (octets : Octets) :
    ∀ x ∈ octets.map (fun b => (Value.int b.toNat, [b])), (uint 1).Encodes x.1 x.2 :=
  List.forall_mem_map.2 fun _ _ => ⟨rfl, rfl⟩

/-- A byte string is recast as the list of its bytes. -/
theorem recasts_bytes (b : Bounds) (label label' : Option String) :
    Recasts (fun v w => ∃ octets, v = .bytes octets ∧ w = byteValues octets) (bytes b label)
      (list (uint 1) b label') := by
  intro v p hv
  obtain ⟨octets, hn, rfl, rfl⟩ := hv
  refine ⟨byteValues octets, ?_, octets, rfl, rfl⟩
  rw [Encodes]
  refine ⟨_, by rwa [List.length_map], encodes_bytes octets, ?_, ?_⟩
  · rw [List.map_map]; rfl
  · rw [List.map_map, List.length_map]
    exact congrArg _ (List.flatMap_singleton' octets).symm

/-- A byte string of one length is recast as the array of its bytes. -/
theorem recasts_byteArray (size : Nat) :
    Recasts (fun v w => ∃ octets, v = .bytes octets ∧ w = byteValues octets) (byteArray size)
      (array (uint 1) size) := by
  intro v p hv
  obtain ⟨rfl, hp⟩ := hv
  refine ⟨byteValues p, ?_, p, rfl, rfl⟩
  rw [Encodes]
  refine ⟨_, by rwa [List.length_map], encodes_bytes p, ?_, ?_⟩
  · rw [List.map_map]; rfl
  · rw [List.map_map]
    exact (List.flatMap_singleton' p).symm

/-! ## Strings -/

/-- What a string over one charset is read from. -/
theorem encodes_ascii_self {cs : Charset} {b : Bounds} {label : Option String} {v : Value} {p : Octets} :
    (ascii cs cs b label).Encodes v p ↔ ∃ text, v = .text (String.ofList text) ∧
      b.admits text.length = true ∧ (∀ c ∈ text, cs.contains c = true) ∧
      p = b.lengthPrefix text.length ++ asciiOctets text := by
  have hhead : headLength cs cs = 0 := by simp [headLength, isSplit]
  rw [Encodes]
  simp only [writeText_eq_ok, hhead, checkChars_self, length_asciiOctets, Nat.add_zero, Nat.sub_zero,
    List.take_zero, List.drop_zero, List.nil_append, Bounds.admits, decide_eq_true_eq]

/-- A string with a first character of its own is read from this character and a string of the
others. -/
theorem encodes_ascii_split {first rest : Charset} (hsplit : isSplit first rest = true) {b : Bounds}
    {label : Option String} {v : Value} {p : Octets} :
    (ascii first rest b label).Encodes v p ↔ ∃ c text t, v = .text (String.ofList (c :: text)) ∧
      first.contains c = true ∧ p = UInt8.ofNat c.toNat :: t ∧
      (ascii rest rest b label).Encodes (.text (String.ofList text)) t := by
  have hhead : headLength first rest = 1 := by rw [headLength, if_pos hsplit]
  simp only [encodes_ascii_self]
  rw [Encodes]
  simp only [writeText_eq_ok, hhead, length_asciiOctets]
  constructor
  · rintro ⟨text, rfl, hn, hc, rfl⟩
    cases text with
    | nil => simp at hn
    | cons c text =>
      rw [checkChars] at hc
      split at hc
      · rename_i hfirst
        rw [List.length_cons] at hn
        exact ⟨c, text, _, rfl, hfirst, rfl, text, rfl, decide_eq_true (by omega),
          checkChars_self.1 hc, rfl⟩
      · cases hc
  · rintro ⟨c, text, t, rfl, hfirst, rfl, text', htext, hn, hc, rfl⟩
    obtain rfl : text = text' := String.ofList_injective (Value.text.inj htext)
    refine ⟨c :: text, rfl, ?_, ?_, rfl⟩
    · have hn := of_decide_eq_true hn
      rw [List.length_cons]
      exact ⟨by omega, by omega⟩
    · rw [checkChars, if_pos hfirst]
      exact checkChars_self.2 hc

/-- The members of a union of units that are named after characters, as a sequence. -/
def charValues (text : List Char) : Value :=
  .tuple (text.map fun c => .tagged (Charset.charName c) .null)

/-- A string over one charset is recast as the list of its characters. -/
theorem recasts_ascii_self {cs : Charset} {char : Codec}
    (hchar : ∀ c, cs.contains c = true →
      char.Encodes (.tagged (Charset.charName c) .null) [UInt8.ofNat c.toNat])
    (b : Bounds) (label label' : Option String) :
    Recasts (fun v w => ∃ text, (∀ c ∈ text, cs.contains c = true) ∧ v = .text (String.ofList text) ∧
      w = charValues text) (ascii cs cs b label) (list char b label') := by
  intro v p hv
  obtain ⟨text, rfl, hn, hc, rfl⟩ := encodes_ascii_self.1 hv
  refine ⟨charValues text, ?_, text, hc, rfl, rfl⟩
  rw [Encodes]
  refine ⟨text.map fun c => (.tagged (Charset.charName c) .null, [UInt8.ofNat c.toNat]),
    by rwa [List.length_map], List.forall_mem_map.2 fun c hmem => hchar c (hc c hmem), ?_, ?_⟩
  · rw [List.map_map]; rfl
  · rw [List.map_map, List.length_map]
    exact congrArg _ (flatten_characters text).symm

/-- A string with a first character of its own is recast as the struct of this character and what the
string of the others is recast as. -/
theorem recasts_ascii_split {first rest : Charset} (hsplit : isSplit first rest = true) {b : Bounds}
    {label label' : Option String} {char tail : Codec}
    (hchar : ∀ c, first.contains c = true →
      char.Encodes (.tagged (Charset.charName c) .null) [UInt8.ofNat c.toNat])
    {T : Value → Value → Prop} (htail : Recasts T (ascii rest rest b label') tail) (name : String) :
    Recasts (fun v w => ∃ c text w', first.contains c = true ∧ v = .text (String.ofList (c :: text)) ∧
        T (.text (String.ofList text)) w' ∧
        w = .ofFields [("first", .tagged (Charset.charName c) .null), ("rest", w')])
      (ascii first rest b label) (struct name [("first", char), ("rest", tail)] .mapping false) := by
  intro v p hv
  obtain ⟨c, text, t, rfl, hc, rfl, ht⟩ := (encodes_ascii_split hsplit).1 hv
  obtain ⟨w', hw', hT⟩ := htail _ t ht
  refine ⟨_, ⟨[("first", .tagged (Charset.charName c) .null), ("rest", w')], ?_, rfl⟩, c, text, w', hc,
    rfl, hT, rfl⟩
  exact ⟨_, _, [UInt8.ofNat c.toNat], t, rfl, rfl, hchar c hc, w', [], t, [], rfl,
    (List.append_nil t).symm, hw', rfl, rfl⟩

end StrictContract.Codec
