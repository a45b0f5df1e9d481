import StrictContract.Proofs.Codec.Canonical

/-! # Recovery — reading back what was written

A codec **recovers** a value if the bytes it writes for the value are an encoding, and the value read
from them is alike to the one written. Collections are recovered when their parts are: what changes
is at most the order of sets and mappings. -/

namespace StrictContract

namespace Octets

/-- An integer that fits its width is read back exactly. -/
theorem toInt_ofInt {width : Nat} {n : Int} (hlow : -(span width : Int) ≤ 2 * n)
    (hhigh : 2 * n < span width) : toInt (ofInt width n) = n := by
  have hspan : (0 : Int) < span width := by omega
  have hmod : ((n % (span width : Int)).toNat : Int) = n % span width :=
    Int.toNat_of_nonneg (Int.emod_nonneg n (by omega))
  have hlt : (n % (span width : Int)).toNat < span width := by
    have := Int.emod_lt_of_pos n hspan
    omega
  rw [toInt, length_ofInt, ofInt, toNat_ofNat hlt]
  by_cases hn : 0 ≤ n
  · rw [Int.emod_eq_of_lt hn (by omega)] at hmod ⊢
    simp only [hmod]
    rw [if_pos (by omega)]
  · have hself : n % (span width : Int) = n + span width := by
      rw [← Int.add_emod_right, Int.emod_eq_of_lt (by omega) (by omega)]
    rw [hself] at hmod ⊢
    simp only [hmod]
    rw [if_neg (by omega)]
    omega

end Octets

namespace Codec

open Value (Alike)

/-- A codec **recovers** a value that is read back alike from the bytes it is written as. -/
def Recovers (c : Codec) (v : Value) : Prop :=
  ∀ p, c.write v = .ok p → ∃ w, c.Encodes w p ∧ v.Alike w

attribute [local simp] Encodes EncodesItems EncodesFields EncodesVariant
attribute [local simp] write writeItems writeFields writeBare writeNamed writeAccepted

/-! ## Scalars -/

@[simp] theorem recovers_unit (v : Value) : Recovers unit v := by
  intro p h
  cases v with
  | null =>
    cases h
    exact ⟨.null, ⟨rfl, rfl⟩, .refl _⟩
  | _ =>
    obtain ⟨_, -, h⟩ := bind_eq_ok.1 h
    cases h

@[simp] theorem recovers_bool (v : Value) : Recovers bool v := by
  intro p h
  cases v with
  | bool b =>
    cases h
    exact ⟨.bool b, ⟨b, rfl, rfl⟩, .refl _⟩
  | _ => cases h

/-- A value that is taken as an integer stands for it. -/
theorem number?_of_integer {v : Value} {n : Int} (h : v.integer = .ok n) : v.number? = some n := by
  unfold Value.integer at h
  split at h
  · cases h
    rfl
  · split at h
    · cases h
    · cases h
      rfl
  · cases h

/-- The bytes of an integer are those that it has. -/
theorem integerOctets_eq_ok {v : Value} {n : Int} {octets : Option Octets} {codec : String}
    {p : Octets} (h : v.integerOctets n octets codec = .ok p) : octets = some p := by
  unfold Value.integerOctets at h
  split at h
  · split at h
    · cases h
    · cases h
      rfl
  · split at h <;> cases h

/-- The bytes of an unsigned integer are those of a number that it stands for and that fits. -/
theorem exists_number?_of_write_uint {size : Nat} {v : Value} {p : Octets}
    (h : (uint size).write v = .ok p) :
    ∃ n : Nat, v.number? = some (n : Int) ∧ n < Octets.span size ∧ p = Octets.ofNat size n := by
  rw [write, writeUInt] at h
  obtain ⟨n, hn, h⟩ := bind_eq_ok.1 h
  have hp := integerOctets_eq_ok h
  split at hp
  · rename_i hfits
    cases hp
    refine ⟨n.toNat, ?_, by omega, rfl⟩
    rw [number?_of_integer hn, Int.toNat_of_nonneg hfits.1]
  · cases hp

/-- Unsigned integers are recovered from whatever stands for them. -/
@[simp] theorem recovers_uint (size : Nat) (v : Value) : Recovers (uint size) v := by
  intro p h
  obtain ⟨n, hn, hfits, rfl⟩ := exists_number?_of_write_uint h
  refine ⟨.int n, ⟨?_, Octets.length_ofNat _ _⟩, .number hn rfl⟩
  rw [Octets.toNat_ofNat hfits]

/-- Signed integers are recovered from whatever stands for them. -/
@[simp] theorem recovers_sint (size : Nat) (v : Value) : Recovers (sint size) v := by
  intro p h
  rw [write, writeSInt] at h
  obtain ⟨n, hn, h⟩ := bind_eq_ok.1 h
  have hp := integerOctets_eq_ok h
  split at hp
  · rename_i hfits
    cases hp
    have hfits := of_decide_eq_true hfits
    refine ⟨.int n, ⟨?_, Octets.length_ofInt _ _⟩, .number (number?_of_integer hn) rfl⟩
    rw [Octets.toInt_ofInt hfits.1 hfits.2]
  · cases hp

/-- A value that is taken as a byte string has its bytes. -/
theorem octets_eq_ok {v : Value} {o : Octets} : v.octets = .ok o ↔ v.octets? = some o := by
  unfold Value.octets
  cases v.octets? <;> simp

/-- Identifiers are recovered from whatever has their bytes. -/
@[simp] theorem recovers_id (kind : IdKind) (v : Value) : Recovers (id kind) v := by
  intro p h
  rw [write, writeArray] at h
  obtain ⟨o, ho, h⟩ := bind_eq_ok.1 h
  split at h
  · rename_i hlength
    cases h
    exact ⟨.id kind ⟨p, hlength⟩, ⟨_, rfl, rfl⟩, .octets (octets_eq_ok.1 ho) rfl⟩
  · cases h

/-- Byte strings are recovered from whatever has their bytes. -/
@[simp] theorem recovers_bytes (b : Bounds) (label : Option String) (v : Value) :
    Recovers (bytes b label) v := by
  intro p h
  rw [write] at h
  obtain ⟨o, ho, h⟩ := bind_eq_ok.1 h
  obtain ⟨⟨⟩, hn, h⟩ := bind_eq_ok.1 h
  cases h
  exact ⟨.bytes o, ⟨o, checkOctets_eq_ok.1 hn, rfl, rfl⟩, .octets (octets_eq_ok.1 ho) rfl⟩

@[simp] theorem recovers_ascii (first rest : Charset) (b : Bounds) (label : Option String) (v : Value) :
    Recovers (ascii first rest b label) v := by
  intro p h
  cases v with
  | text s => exact ⟨.text s, ⟨s.toList, by rw [String.ofList_toList], h⟩, .refl _⟩
  | broken t => exact (refuseText_ne_ok h).elim
  | _ => cases h

/-- Members are recovered from whatever stands for their tags. -/
@[simp] theorem recovers_enumeration {decl : Enumeration} (hsmall : ∀ x ∈ decl.names, x.2 < 256)
    (v : Value) : Recovers (enumeration decl) v := by
  intro p h
  rw [write] at h
  obtain ⟨found, hfound, h⟩ := bind_eq_ok.1 h
  split at h
  · rename_i name tag
    split at h
    · cases h
    · cases h
      obtain ⟨hfind, -⟩ := Enumeration.lookUp_eq_some.1 hfound
      obtain ⟨n, hv, hn⟩ := Option.bind_eq_some_iff.1 hfind
      obtain ⟨hmem, htag⟩ := Enumeration.find?_eq_some hn
      have hlt : tag < 256 := hsmall _ hmem
      have hread : (UInt8.ofNat tag).toNat = tag := by simp [Nat.mod_eq_of_lt hlt]
      refine ⟨.member decl name tag, ⟨UInt8.ofNat tag, name, tag, ?_, by rw [hread], rfl⟩,
        .number hv (htag ▸ rfl)⟩
      rw [hread]
      exact Enumeration.lookUp_eq_some.2 ⟨by rw [← htag] at hn; exact hn, by intro h; cases h⟩
  · obtain ⟨_, -, h⟩ := bind_eq_ok.1 h
    cases h

/-! ## Collections -/

/-- Items that are recovered are read back one by one. -/
theorem exists_recovered {item : Codec} {xs : List (Value × Octets)}
    (hxs : ∀ x ∈ xs, item.write x.1 = .ok x.2) (hitems : ∀ x ∈ xs, Recovers item x.1) :
    ∃ ys : List (Value × Value × Octets), xs = ys.map (fun y => (y.1, y.2.2)) ∧
      ∀ y ∈ ys, item.Encodes y.2.1 y.2.2 ∧ y.1.Alike y.2.1 :=
  exists_eq_map fun x hx => by
    obtain ⟨w, hw, hv⟩ := hitems x hx x.2 (hxs x hx)
    exact ⟨(x.1, w, x.2), rfl, hw, hv⟩

/-- Sequences of recovered items are recovered. -/
theorem recovers_list {item : Codec} {b : Bounds} {label : Option String} {vs : List Value}
    (hitems : ∀ v ∈ vs, Recovers item v) : Recovers (list item b label) (.tuple vs) := by
  intro p h
  obtain ⟨xs, hv, hn, hxs, rfl⟩ := write_list_eq_ok.1 h
  cases hv
  obtain ⟨ys, rfl, hys⟩ := exists_recovered hxs (List.forall_mem_map.1 hitems)
  refine ⟨.tuple (ys.map fun y => y.2.1), ⟨ys.map Prod.snd, ?_, ?_, ?_, ?_⟩, ?_⟩
  · simpa using hn
  · exact List.forall_mem_map.2 fun y hy => (hys y hy).1
  · simp [Function.comp_def]
  · simp [Function.comp_def]
  · have h := @Alike.tuple (ys.map fun y => (y.1, y.2.1))
      (List.forall_mem_map.2 fun y hy => (hys y hy).2)
    simpa [Function.comp_def] using h

/-- Sets of recovered elements are recovered. -/
theorem recovers_set {item : Codec} (hkey : Keyed item) {b : Bounds} {label : Option String}
    {vs : List Value} (hitems : ∀ v ∈ vs, Recovers item v) :
    Recovers (set item b .members label) (.set vs) := by
  intro p h
  obtain ⟨xs, ys, hv, hxs, hperm, hlt, hn, rfl⟩ := write_set_eq_ok.1 h
  cases hv
  obtain ⟨zs, rfl, hzs⟩ := exists_recovered (fun y hy => hxs y (hperm.mem_iff.1 hy))
    fun y hy => hitems _ (List.mem_map_of_mem (hperm.mem_iff.1 hy))
  refine ⟨.set (zs.map fun z => z.2.1), (encodes_set_iff hkey).2 ⟨zs.map Prod.snd, ?_, ?_, ?_, ?_, ?_⟩,
    ?_⟩
  · simpa using hn
  · exact List.forall_mem_map.2 fun z hz => (hzs z hz).1
  · simpa [Function.comp_def] using hlt
  · simp [Function.comp_def]
  · simp [Function.comp_def]
  · refine @Alike.set _ _ (zs.map fun z => (z.1, z.2.1)) ?_ ?_
      (List.forall_mem_map.2 fun z hz => (hzs z hz).2)
    · simpa [Function.comp_def] using (hperm.map Prod.fst).symm
    · simp [Function.comp_def]

/-- Mappings with recovered keys and values are recovered. -/
theorem recovers_map {key value : Codec} (hkey : Keyed key) {b : Bounds} {label : Option String}
    {entries : List (Value × Value)} (hkeys : ∀ e ∈ entries, Recovers key e.1)
    (hvalues : ∀ e ∈ entries, Recovers value e.2) :
    Recovers (map key value b .mapping label) (.map entries) := by
  intro p h
  obtain ⟨es, fs, rfl, hes, hperm, hlt, hn, rfl⟩ := write_mapping_eq_ok.1 h
  rw [List.forall_mem_map] at hkeys hvalues
  -- every written entry with the key and the value that are read back from it
  obtain ⟨gs, rfl, hgs⟩ := exists_eq_map
    (f := fun g : ((Value × Octets) × (Value × Octets)) × (Value × Value) => g.1)
    (P := fun g => (key.Encodes g.2.1 g.1.1.2 ∧ value.Encodes g.2.2 g.1.2.2) ∧
      g.1.1.1.Alike g.2.1 ∧ g.1.2.1.Alike g.2.2)
    fun f hf => by
      have he := hperm.mem_iff.1 hf
      obtain ⟨k, hk, hak⟩ := hkeys f he f.1.2 (hes f he).1
      obtain ⟨v, hv, hav⟩ := hvalues f he f.2.2 (hes f he).2
      exact ⟨(f, k, v), rfl, ⟨hk, hv⟩, hak, hav⟩
  refine ⟨.map (gs.map Prod.snd), (encodes_mapping_iff hkey).2
    ⟨gs.map fun g => ((g.2.1, g.1.1.2), (g.2.2, g.1.2.2)), ?_, ?_, ?_, ?_, ?_⟩, ?_⟩
  · simpa using hn
  · exact List.forall_mem_map.2 fun g hg => (hgs g hg).1
  · simpa [Function.comp_def] using hlt
  · simp [Function.comp_def]
  · simp [Function.comp_def]
  · refine @Alike.map _ _ (gs.map fun g => ((g.1.1.1, g.1.2.1), g.2)) ?_ ?_
      (List.forall_mem_map.2 fun g hg => (hgs g hg).2.1)
      (List.forall_mem_map.2 fun g hg => (hgs g hg).2.2)
    · simpa [Function.comp_def] using (hperm.map fun e => (e.1.1, e.2.1)).symm
    · simp [Function.comp_def]

section

variable {α : Type} {item key value : Codec} {f g : α → Value} {b : Bounds}
  {label : Option String}

@[simp] theorem recovers_list_map (hf : ∀ a, Recovers item (f a)) (items : List α) :
    Recovers (list item b label) (.tuple (items.map f)) :=
  recovers_list (List.forall_mem_map.2 fun a _ => hf a)

@[simp] theorem recovers_set_map (hkey : Keyed item) (hf : ∀ a, Recovers item (f a))
    (items : List α) : Recovers (set item b .members label) (.set (items.map f)) :=
  recovers_set hkey (List.forall_mem_map.2 fun a _ => hf a)

@[simp] theorem recovers_map_map (hkey : Keyed key)
    (hf : ∀ a, Recovers key (f a)) (hg : ∀ a, Recovers value (g a)) (entries : List α) :
    Recovers (map key value b .mapping label) (.map (entries.map fun e => (f e, g e))) :=
  recovers_map hkey (List.forall_mem_map.2 fun a _ => hf a) (List.forall_mem_map.2 fun a _ => hg a)

end

/-! ## Composites -/

/-- Absence is recovered. -/
@[simp] theorem recovers_none (inner : Codec) : Recovers (option inner) .null := by
  intro p h
  cases h
  exact ⟨.null, .inl ⟨rfl, rfl⟩, .refl _⟩

/-- Present values are recovered. -/
@[simp] theorem recovers_some {inner : Codec} {v : Value} (hv : Recovers inner v) (hne : v ≠ .null) :
    Recovers (option inner) v := by
  intro p h
  rw [write] at h
  · obtain ⟨q, hq, h⟩ := bind_eq_ok.1 h
    cases h
    obtain ⟨w, hw, halike⟩ := hv q hq
    exact ⟨w, .inr ⟨q, rfl, hw⟩, halike⟩
  · exact hne

/-- Fields of which every one is recovered by the codec of its name. -/
def RecoversFields : List (String × Codec) → List (String × Value) → Prop
  | [], [] => True
  | (name, c) :: fields, (name', v) :: vs => name' = name ∧ Recovers c v ∧ RecoversFields fields vs
  | _, _ => False

/-- Recovered fields are those of the struct. -/
theorem RecoversFields.names {fields : List (String × Codec)} {vs : List (String × Value)}
    (h : RecoversFields fields vs) : vs.map Prod.fst = fields.map Prod.fst := by
  induction fields generalizing vs with
  | nil =>
    cases vs with
    | nil => rfl
    | cons => exact h.elim
  | cons f fields ih =>
    cases vs with
    | nil => exact h.elim
    | cons x vs =>
      obtain ⟨hname, -, hvs⟩ := h
      rw [List.map_cons, List.map_cons, ih hvs, hname]

/-- Recovered fields are read back one by one. -/
theorem RecoversFields.exists_encodes {fields : List (String × Codec)} {vs : List (String × Value)}
    (h : RecoversFields fields vs) {v : Value} (hv : ∀ x ∈ vs, v.field x.1 = .ok x.2) {p : Octets}
    (hp : writeFields fields v = .ok p) :
    ∃ xs : List ((String × Value) × (String × Value)), vs = xs.map Prod.fst ∧
      EncodesFields fields (xs.map Prod.snd) p ∧
      ∀ x ∈ xs, x.1.1 = x.2.1 ∧ x.1.2.Alike x.2.2 := by
  induction fields generalizing vs p with
  | nil =>
    cases vs with
    | nil =>
      cases hp
      exact ⟨[], rfl, ⟨rfl, rfl⟩, nofun⟩
    | cons => exact h.elim
  | cons f fields ih =>
    cases vs with
    | nil => exact h.elim
    | cons x vs =>
      obtain ⟨hname, hx, hvs⟩ := h
      rw [List.forall_mem_cons] at hv
      rw [writeFields] at hp
      obtain ⟨q, hq, hp⟩ := bind_eq_ok.1 hp
      obtain ⟨t, ht, hp⟩ := bind_eq_ok.1 hp
      cases hp
      obtain ⟨y, hy, hq⟩ := bind_eq_ok.1 (inside_eq_ok.1 hq)
      rw [← hname, hv.1] at hy
      cases hy
      obtain ⟨w, hw, halike⟩ := hx q hq
      obtain ⟨xs, rfl, hxs, hxs'⟩ := ih hvs hv.2 ht
      exact ⟨(x, (f.1, w)) :: xs, rfl, ⟨w, _, q, t, rfl, rfl, hw, hxs⟩,
        List.forall_mem_cons.2 ⟨⟨hname, halike⟩, hxs'⟩⟩

/-- Records of recovered fields are recovered. -/
@[simp] theorem recovers_record {name type : String} {fields : List (String × Codec)} {wrapped : Bool}
    {vs : List (String × Value)} (htype : type ≠ "Lib") (hnames : (fields.map Prod.fst).Nodup)
    (hvs : RecoversFields fields vs) :
    Recovers (struct name fields (.record type) wrapped) (.record type vs) := by
  intro p h
  rw [write_record] at h
  obtain ⟨xs, rfl, hxs, halike⟩ := hvs.exists_encodes
    (fun x hx => field_record (hvs.names ▸ hnames) hx) h
  exact ⟨.record type (xs.map Prod.snd), encodes_record_iff.2 ⟨_, hxs, rfl⟩,
    .record htype (fun x hx => (halike x hx).1) fun x hx => (halike x hx).2⟩

/-- A record is recovered by a union of records when it is by the variant of its type. -/
@[simp] theorem recovers_union {name type : String} {variants : List (Nat × String × Codec)}
    (h : RecordVariants variants) {fields : List (String × Value)}
    (hv : ∀ x ∈ variants, recordType? x.2.2 = some type → Recovers x.2.2 (.record type fields)) :
    Recovers (union name variants) (.record type fields) := by
  intro p hp
  rw [write_union_record] at hp
  obtain ⟨x, hx, htype, q, hq, rfl⟩ := h.writeAccepted_eq_ok.1 hp
  obtain ⟨w, hw, halike⟩ := hv x hx htype q hq
  refine ⟨w, ⟨UInt8.ofNat x.1, q, rfl, h.encodesVariant_iff.2 ⟨x, hx, ?_, hw⟩⟩, halike⟩
  simp [Nat.mod_eq_of_lt (h.small x hx)]

end Codec

end StrictContract
