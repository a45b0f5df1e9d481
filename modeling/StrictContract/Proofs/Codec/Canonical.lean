import StrictContract.Proofs.Codec.Reencoding
import StrictContract.Proofs.Value.Alike

/-! # Canonical codecs — one encoding for every value

A codec is **canonical** if every encoding is what the value read from it is written as, and if alike
values are read from the same encoding only. Codecs made of canonical parts are canonical. For sets
and mappings their elements and keys have to be **keyed**: values read from different encodings are
different keys, so that nothing read is lost when the collection is made. -/

namespace StrictContract

namespace Codec

/-- A **canonical** codec. -/
structure Canonical (c : Codec) : Prop where
  /-- What is read from an encoding is written as this encoding. -/
  write_eq_ok : ∀ {v p}, c.Encodes v p → c.write v = .ok p
  /-- Values read from different encodings are not alike. -/
  separates : ∀ {v w p q}, c.Encodes v p → c.Encodes w q → v.Alike w → p = q

/-- A **keyed** codec: the values read are keys that can be shown, and those from different
encodings are different keys. -/
structure Keyed (c : Codec) : Prop where
  isKey : ∀ {v p}, c.Encodes v p → v.isKey = true
  hasLabel : ∀ {v p}, c.Encodes v p → v.HasLabel
  apart : ∀ {v w p q}, c.Encodes v p → c.Encodes w q → v.same w = true → p = q

/-- A canonical codec reencodes. -/
theorem Canonical.reencodes {c : Codec} (hc : Canonical c) : Reencodes c :=
  fun _ _ h => hc.write_eq_ok h

/-- The encodings of a keyed codec are apart. -/
theorem Keyed.encodingsApart {c : Codec} (hc : Keyed c) : Apart c :=
  fun _ _ _ _ hv hw h => hc.apart hv hw h

attribute [local simp] Encodes EncodesItems EncodesFields EncodesVariant
attribute [local simp] write writeItems writeFields writeBare writeNamed writeAccepted

open Value (Alike)

/-! ## Scalars -/

/-- The type of null is canonical. -/
@[simp] theorem canonical_unit : Canonical unit where
  write_eq_ok h := reencodes_unit h
  separates := by
    rintro v w p q ⟨rfl, rfl⟩ ⟨rfl, rfl⟩ _
    rfl

/-- Truth values are canonical. -/
@[simp] theorem canonical_bool : Canonical bool where
  write_eq_ok h := reencodes_bool h
  separates := by
    rintro v w p q ⟨b, rfl, rfl⟩ ⟨c, rfl, rfl⟩ h
    have hnumber := h.number_left rfl
    cases b <;> cases c <;> simp_all [Value.number?]

/-- Bytes that denote the same number are the same. -/
theorem eq_of_toNat_eq {p q : Octets} (hlength : p.length = q.length)
    (h : Octets.toNat p = Octets.toNat q) : p = q := by
  rw [← Octets.ofNat_toNat p, ← Octets.ofNat_toNat q, hlength, h]

/-- Unsigned integers are canonical. -/
@[simp] theorem canonical_uint (size : Nat) : Canonical (uint size) where
  write_eq_ok h := reencodes_uint size h
  separates := by
    rintro v w p q ⟨rfl, rfl⟩ ⟨rfl, hq⟩ h
    have hnumber := h.number_left rfl
    simp only [Value.number?, Option.some.injEq] at hnumber
    exact eq_of_toNat_eq hq.symm (by omega)

/-- Signed integers are canonical. -/
@[simp] theorem canonical_sint (size : Nat) : Canonical (sint size) where
  write_eq_ok h := reencodes_sint size h
  separates := by
    rintro v w p q ⟨rfl, rfl⟩ ⟨rfl, hq⟩ h
    have hnumber := h.number_left rfl
    simp only [Value.number?, Option.some.injEq] at hnumber
    rw [← Octets.ofInt_toInt p, ← Octets.ofInt_toInt q, hq, hnumber]

/-- Identifiers are canonical. -/
@[simp] theorem canonical_id (kind : IdKind) : Canonical (id kind) where
  write_eq_ok h := reencodes_id kind h
  separates := by
    rintro v w p q ⟨x, rfl, rfl⟩ ⟨y, rfl, rfl⟩ h
    have hoctets := h.octets_left rfl
    simp only [Value.octets?, Option.some.injEq] at hoctets
    exact hoctets.symm

/-- Byte strings are canonical. -/
@[simp] theorem canonical_bytes (b : Bounds) (label : Option String) : Canonical (bytes b label) where
  write_eq_ok h := reencodes_bytes b label h
  separates := by
    rintro v w p q ⟨x, hx, rfl, rfl⟩ ⟨y, hy, rfl, rfl⟩ h
    have hoctets := h.octets_left rfl
    simp only [Value.octets?, Option.some.injEq] at hoctets
    rw [hoctets]

/-- Strings are canonical. -/
@[simp] theorem canonical_ascii (first rest : Charset) (b : Bounds) (label : Option String) :
    Canonical (ascii first rest b label) where
  write_eq_ok h := reencodes_ascii first rest b label h
  separates := by
    rintro v w p q ⟨cs, rfl, hp⟩ ⟨ds, rfl, hq⟩ h
    have htext := h.text_left
    simp only [Value.text.injEq, String.ofList_inj] at htext
    rw [htext, hp] at hq
    exact Except.ok.inj hq

/-! ## Collections -/

/-- The encodings of alike items are the same, one by one. -/
theorem encodings_eq {α β : Type} {R : α → β → Prop} {S : α → α → Prop}
    (separates : ∀ {a b p q}, R a p → R b q → S a b → p = q) {as bs : List (α × β)}
    {xs : List (α × α)} (ha : ∀ a ∈ as, R a.1 a.2) (hb : ∀ b ∈ bs, R b.1 b.2)
    (hx : ∀ x ∈ xs, S x.1 x.2) (has : as.map Prod.fst = xs.map Prod.fst)
    (hbs : bs.map Prod.fst = xs.map Prod.snd) : as.map Prod.snd = bs.map Prod.snd := by
  induction xs generalizing as bs with
  | nil => rw [List.map_eq_nil_iff.1 has, List.map_eq_nil_iff.1 hbs]
  | cons x xs ih =>
    obtain ⟨a, as, rfl, hax, has⟩ := List.map_eq_cons_iff.1 has
    obtain ⟨b, bs, rfl, hbx, hbs⟩ := List.map_eq_cons_iff.1 hbs
    rw [List.forall_mem_cons] at ha hb hx
    rw [List.map_cons, List.map_cons, ih ha.2 hb.2 hx.2 has hbs,
      separates ha.1 hb.1 (by rw [hax, hbx]; exact hx.1)]

/-- The encodings of alike collections are the same in ascending order of their keys. -/
theorem encodings_eq_of_ascending {α β : Type} {R : α → β → Prop} {S : α → α → Prop}
    (separates : ∀ {a b p q}, R a p → R b q → S a b → p = q) (key : β → Octets)
    (as bs : List (α × β)) {xs : List (α × α)} (ha : ∀ a ∈ as, R a.1 a.2)
    (hb : ∀ b ∈ bs, R b.1 b.2) (hx : ∀ x ∈ xs, S x.1 x.2)
    (has : (as.map Prod.fst).Perm (xs.map Prod.fst)) (hbs : (bs.map Prod.fst).Perm (xs.map Prod.snd))
    (hlta : ((as.map Prod.snd).map key).Pairwise (· < ·))
    (hltb : ((bs.map Prod.snd).map key).Pairwise (· < ·)) :
    as.map Prod.snd = bs.map Prod.snd := by
  obtain ⟨as', has', hmapa⟩ := exists_perm_of_perm_map has.symm
  obtain ⟨bs', hbs', hmapb⟩ := exists_perm_of_perm_map hbs.symm
  have heq : as'.map Prod.snd = bs'.map Prod.snd :=
    encodings_eq (R := R) (S := S) separates (fun a h => ha a (has'.mem_iff.1 h))
      (fun b h => hb b (hbs'.mem_iff.1 h)) hx hmapa.symm hmapb.symm
  have hperm : (as.map Prod.snd).Perm (bs.map Prod.snd) :=
    (has'.symm.map _).trans (heq ▸ hbs'.map _)
  exact eq_of_perm_of_ascending key hperm hlta hltb

/-- Lists of canonical items are canonical. -/
@[simp] theorem canonical_list {item : Codec} (hitem : Canonical item) (b : Bounds)
    (label : Option String) : Canonical (list item b label) where
  write_eq_ok h := reencodes_list hitem.reencodes b label h
  separates := by
    rintro v w p q ⟨xs, hn, hxs, rfl, rfl⟩ ⟨ys, hm, hys, rfl, rfl⟩ h
    obtain ⟨zs, hfst, hsnd, hzs⟩ := h.tuple_left
    have heq := encodings_eq (R := item.Encodes) (S := Alike) hitem.separates hxs hys hzs hfst
      (Value.tuple.inj hsnd)
    have hlength : xs.length = ys.length := by
      rw [← List.length_map Prod.snd, heq, List.length_map]
    rw [heq, hlength]

/-- Items read are keys if each of them is. -/
theorem areKeys_of_forall {items : List Value} (h : ∀ v ∈ items, v.isKey = true) :
    Value.areKeys items = true := by
  induction items with
  | nil => rfl
  | cons v items ih =>
    rw [List.forall_mem_cons] at h
    rw [Value.areKeys, h.1, ih h.2]
    rfl

/-- A set of keyed elements is read from the ascending encodings of its elements. -/
theorem encodes_set_iff {item : Codec} (hkey : Keyed item) {b : Bounds} {label : Option String}
    {v : Value} {p : Octets} :
    (set item b .members label).Encodes v p ↔ ∃ xs : List (Value × Octets),
      b.admits xs.length = true ∧ (∀ x ∈ xs, item.Encodes x.1 x.2) ∧
      (xs.map Prod.snd).Pairwise (· < ·) ∧ v = .set (xs.map Prod.fst) ∧
      p = b.lengthPrefix xs.length ++ (xs.map Prod.snd).flatten := by
  have hvalue : ∀ xs : List (Value × Octets), (∀ x ∈ xs, item.Encodes x.1 x.2) →
      (xs.map Prod.snd).Pairwise (· < ·) →
      SetForm.members.value (xs.map Prod.fst) = .ok (.set (xs.map Prod.fst)) := by
    intro xs hxs hlt
    have hkeys : Value.areKeys (xs.map Prod.fst) = true :=
      areKeys_of_forall (List.forall_mem_map.2 fun x hx => hkey.isKey (hxs x hx))
    rw [SetForm.value, if_pos hkeys, hkey.encodingsApart.setValue hxs hlt]
  constructor
  · rintro ⟨xs, hn, hxs, hlt, hv, rfl⟩
    rw [hvalue xs hxs hlt, Except.ok.injEq] at hv
    exact ⟨xs, hn, hxs, hlt, hv.symm, rfl⟩
  · rintro ⟨xs, hn, hxs, hlt, rfl, rfl⟩
    exact ⟨xs, hn, hxs, hlt, hvalue xs hxs hlt, rfl⟩

/-- Sets of canonical keyed elements are canonical. -/
@[simp] theorem canonical_set {item : Codec} (hitem : Canonical item) (hkey : Keyed item) (b : Bounds)
    (label : Option String) : Canonical (set item b .members label) where
  write_eq_ok h := reencodes_set hitem.reencodes (fun _ => hkey.encodingsApart) h
  separates := by
    intro v w p q hv hw h
    obtain ⟨xs, hn, hxs, hltx, rfl, rfl⟩ := (encodes_set_iff hkey).1 hv
    obtain ⟨ys, hm, hys, hlty, rfl, rfl⟩ := (encodes_set_iff hkey).1 hw
    obtain ⟨ws, zs, hws, hfst, hsnd, hzs⟩ := h.set_left
    rw [Value.set.injEq] at hws
    subst hws
    have heq := encodings_eq_of_ascending (R := item.Encodes) (S := Alike) hitem.separates
      (fun octets => octets) xs ys hxs hys hzs hfst hsnd (by rwa [List.map_id']) (by rwa [List.map_id'])
    have hlength : xs.length = ys.length := by
      rw [← List.length_map Prod.snd, heq, List.length_map]
    rw [heq, hlength]

/-- A mapping with keyed keys is read from the ascending encodings of its entries. -/
theorem encodes_mapping_iff {key value : Codec} (hkey : Keyed key) {b : Bounds}
    {label : Option String} {v : Value} {p : Octets} :
    (map key value b .mapping label).Encodes v p ↔
      ∃ es : List ((Value × Octets) × (Value × Octets)), b.admits es.length = true ∧
        (∀ e ∈ es, key.Encodes e.1.1 e.1.2 ∧ value.Encodes e.2.1 e.2.2) ∧
        (es.map (·.1.2)).Pairwise (· < ·) ∧ v = .map (es.map fun e => (e.1.1, e.2.1)) ∧
        p = b.lengthPrefix es.length ++ (es.map fun e => e.1.2 ++ e.2.2).flatten := by
  have hvalue : ∀ es : List ((Value × Octets) × (Value × Octets)),
      (∀ e ∈ es, key.Encodes e.1.1 e.1.2) → (es.map (·.1.2)).Pairwise (· < ·) →
      MapForm.mapping.value (es.map fun e => (e.1.1, e.2.1)) =
        .ok (.map (es.map fun e => (e.1.1, e.2.1))) := by
    intro es hes hlt
    have hkeys : Value.areKeys ((es.map fun e => (e.1.1, e.2.1)).map Prod.fst) = true := by
      rw [List.map_map]
      exact areKeys_of_forall (List.forall_mem_map.2 fun e he => hkey.isKey (hes e he))
    rw [MapForm.value, if_pos hkeys, hkey.encodingsApart.mapValue hes hlt]
  constructor
  · rintro ⟨es, hn, hes, hlt, hv, rfl⟩
    rw [hvalue es (fun e he => (hes e he).1) hlt, Except.ok.injEq] at hv
    exact ⟨es, hn, fun e he => ⟨(hes e he).1, (hes e he).2.2⟩, hlt, hv.symm, rfl⟩
  · rintro ⟨es, hn, hes, hlt, rfl, rfl⟩
    exact ⟨es, hn, fun e he => ⟨(hes e he).1, hkey.hasLabel (hes e he).1, (hes e he).2⟩, hlt,
      hvalue es (fun e he => (hes e he).1) hlt, rfl⟩

/-- The entries of a mapping are the pairs that its items are taken apart into. -/
theorem eq_map_of_map_tuple {α : Type} {entries : List (Value × Value)} {es : List α}
    {f : α → Value} {g : α → Value × Value}
    (h : (entries.map fun (k, x) => Value.tuple [k, x]) = es.map f)
    (hg : ∀ e ∈ es, (f e).unpair = .ok (g e)) : entries = es.map g := by
  induction entries generalizing es with
  | nil =>
    obtain rfl := List.map_eq_nil_iff.1 h.symm
    rfl
  | cons entry entries ih =>
    obtain ⟨e, rest, rfl, he, hrest⟩ := List.map_eq_cons_iff.1 h.symm
    rw [List.forall_mem_cons] at hg
    have hpair := hg.1
    rw [he, Value.unpair_tuple, Except.ok.injEq] at hpair
    rw [List.map_cons, ← hpair, ih hrest.symm hg.2]

/-- A mapping is written when its keys and values are, and no two keys as the same bytes. -/
theorem write_mapping_eq_ok {key value : Codec} {b : Bounds} {label : Option String}
    {entries : List (Value × Value)} {p : Octets} :
    (map key value b .mapping label).write (.map entries) = .ok p ↔
      ∃ es fs : List ((Value × Octets) × (Value × Octets)),
        entries = es.map (fun e => (e.1.1, e.2.1)) ∧
        (∀ e ∈ es, key.write e.1.1 = .ok e.1.2 ∧ value.write e.2.1 = .ok e.2.2) ∧ fs.Perm es ∧
        (fs.map (·.1.2)).Pairwise (· < ·) ∧ b.admits fs.length = true ∧
        p = b.lengthPrefix fs.length ++ (fs.map fun e => e.1.2 ++ e.2.2).flatten := by
  rw [write_map_eq_ok]
  simp only [Value.mapItems, Except.ok.injEq]
  constructor
  · rintro ⟨es, fs, hentries, hes, hperm, hlt, hn, rfl⟩
    refine ⟨es.map Prod.snd, fs, ?_, List.forall_mem_map.2 fun e he => (hes e he).2, hperm, hlt, hn,
      rfl⟩
    rw [List.map_map]
    exact eq_map_of_map_tuple hentries fun e he => (hes e he).1
  · rintro ⟨es, fs, rfl, hes, hperm, hlt, hn, rfl⟩
    refine ⟨es.map fun e => (.tuple [e.1.1, e.2.1], e), fs, ?_, ?_, ?_, hlt, hn, rfl⟩
    · simp [Function.comp_def]
    · exact List.forall_mem_map.2 fun e he => ⟨Value.unpair_tuple _ _, hes e he⟩
    · simpa [Function.comp_def] using hperm

/-- An empty set is written as its number of elements. -/
theorem write_set_nil {item : Codec} {b : Bounds} {label : Option String} (hb : b.min = 0) :
    (set item b .members label).write (.set []) = .ok (b.lengthPrefix 0) :=
  write_set_eq_ok.2
    ⟨[], [], rfl, nofun, .nil, .nil, by simp [Bounds.admits, hb], (List.append_nil _).symm⟩

/-- An empty mapping is written as its number of entries. -/
theorem write_mapping_nil {key value : Codec} {b : Bounds} {label : Option String}
    (hb : b.min = 0) : (map key value b .mapping label).write (.map []) = .ok (b.lengthPrefix 0) :=
  write_mapping_eq_ok.2
    ⟨[], [], rfl, nofun, .nil, .nil, by simp [Bounds.admits, hb], (List.append_nil _).symm⟩

/-- Mappings with canonical keyed keys and canonical values are canonical. -/
@[simp] theorem canonical_map {key value : Codec} (hcanonical : Canonical key) (hkey : Keyed key)
    (hvalue : Canonical value) (b : Bounds) (label : Option String) :
    Canonical (map key value b .mapping label) where
  write_eq_ok h := reencodes_map hcanonical.reencodes hvalue.reencodes (fun _ => hkey.encodingsApart) h
  separates := by
    intro v w p q hv hw h
    obtain ⟨es, hn, hes, hlte, rfl, rfl⟩ := (encodes_mapping_iff hkey).1 hv
    obtain ⟨fs, hm, hfs, hltf, rfl, rfl⟩ := (encodes_mapping_iff hkey).1 hw
    obtain ⟨ws, zs, hws, hfst, hsnd, hzs⟩ := h.map_left
    rw [Value.map.injEq] at hws
    subst hws
    have heq := encodings_eq_of_ascending
      (R := fun a p => key.Encodes a.1 p.1 ∧ value.Encodes a.2 p.2)
      (S := fun a b => Alike a.1 b.1 ∧ Alike a.2 b.2)
      (fun ha hb hab => Prod.ext (hcanonical.separates ha.1 hb.1 hab.1)
        (hvalue.separates ha.2 hb.2 hab.2)) Prod.fst
      (es.map fun e => ((e.1.1, e.2.1), (e.1.2, e.2.2)))
      (fs.map fun e => ((e.1.1, e.2.1), (e.1.2, e.2.2))) (List.forall_mem_map.2 hes)
      (List.forall_mem_map.2 hfs) hzs (by simpa [Function.comp_def] using hfst)
      (by simpa [Function.comp_def] using hsnd) (by simpa [Function.comp_def] using hlte)
      (by simpa [Function.comp_def] using hltf)
    simp only [List.map_map, Function.comp_def] at heq
    have hlength : es.length = fs.length := by
      rw [← List.length_map fun e => (e.1.2, e.2.2), heq, List.length_map]
    have hflat := congrArg (List.map fun x : Octets × Octets => x.1 ++ x.2) heq
    simp only [List.map_map, Function.comp_def] at hflat
    rw [hflat, hlength]

/-! ## Composites -/

/-- Optional values are canonical when no present value is read as null. -/
@[simp] theorem canonical_option {inner : Codec} (hinner : Canonical inner)
    (hnull : ∀ p, ¬ inner.Encodes .null p) : Canonical (option inner) where
  write_eq_ok h := reencodes_option hinner.reencodes hnull h
  separates := by
    rintro v w p q (⟨rfl, rfl⟩ | ⟨p, rfl, hv⟩) (⟨rfl, rfl⟩ | ⟨q, rfl, hw⟩) h
    · rfl
    · exact absurd (h.null_left ▸ hw) (hnull q)
    · exact absurd (h.symm.null_left ▸ hv) (hnull p)
    · rw [hinner.separates hv hw h]

/-- No identifier is null. -/
@[simp] theorem not_encodes_null_id (kind : IdKind) (p : Octets) : ¬ (id kind).Encodes .null p := by
  rintro ⟨x, hx, -⟩
  cases hx

/-- Members are canonical, unless their enumeration keeps them from being numbers. -/
@[simp] theorem canonical_enumeration {decl : Enumeration} (hint : decl.lacks "__int__" = false) :
    Canonical (enumeration decl) where
  write_eq_ok h := reencodes_enumeration hint h
  separates := by
    rintro v w p q ⟨tag, name, t, -, rfl, rfl⟩ ⟨tag', name', t', -, rfl, rfl⟩ h
    have hnumber := h.number_left rfl
    simp only [Value.number?, Option.some.injEq, Int.ofNat_inj, UInt8.toNat_inj] at hnumber
    rw [hnumber]

/-- Alike fields are read from the same encodings. -/
theorem EncodesFields.separates {fields : List (String × Codec)}
    {xs : List ((String × Value) × (String × Value))} {p q : Octets}
    (hp : EncodesFields fields (xs.map Prod.fst) p) (hq : EncodesFields fields (xs.map Prod.snd) q)
    (hfields : ∀ f ∈ fields, Canonical f.2) (hx : ∀ x ∈ xs, Alike x.1.2 x.2.2) : p = q := by
  induction fields generalizing xs p q with
  | nil => rw [hp.2, hq.2]
  | cons f fields ih =>
    obtain ⟨v, vs, p₁, p₂, hvs, rfl, hv, hp₂⟩ := hp
    obtain ⟨w, ws, q₁, q₂, hws, rfl, hw, hq₂⟩ := hq
    obtain ⟨x, xs, rfl, hxv, rfl⟩ := List.map_eq_cons_iff.1 hvs
    rw [List.map_cons, List.cons.injEq] at hws
    obtain ⟨hxw, rfl⟩ := hws
    rw [List.forall_mem_cons] at hfields hx
    rw [hxv, hxw] at hx
    rw [hfields.1.separates hv hw hx.1, ih hp₂ hq₂ hfields.2 hx.2]

/-- The fields of records of this library are read one after another. -/
theorem encodes_record_iff {name type : String} {fields : List (String × Codec)} {wrapped : Bool}
    {v : Value} {p : Octets} :
    (struct name fields (.record type) wrapped).Encodes v p ↔
      ∃ vs, EncodesFields fields vs p ∧ v = .record type vs := by
  rw [Encodes]
  simp only [StructForm.value, Except.ok.injEq, @eq_comm _ v]

/-- No record is null. -/
@[simp] theorem not_encodes_null_record {name type : String} {fields : List (String × Codec)}
    {wrapped : Bool} (p : Octets) : ¬ (struct name fields (.record type) wrapped).Encodes .null p := by
  intro h
  obtain ⟨vs, -, hv⟩ := encodes_record_iff.1 h
  cases hv

/-- A record of this library is written field by field. -/
theorem write_record {name type : String} {fields : List (String × Codec)} {wrapped : Bool}
    {vs : List (String × Value)} :
    (struct name fields (.record type) wrapped).write (.record type vs) =
      writeFields fields (.record type vs) := by
  rw [write]
  simp [accepts]

/-- Records of canonical fields are canonical. -/
@[simp] theorem canonical_record {name type : String} {fields : List (String × Codec)} {wrapped : Bool}
    (htype : type ≠ "Lib") (hnames : (fields.map Prod.fst).Nodup)
    (hfields : ∀ f ∈ fields, Canonical f.2) :
    Canonical (struct name fields (.record type) wrapped) where
  write_eq_ok := by
    intro v p h
    obtain ⟨vs, hvs, rfl⟩ := encodes_record_iff.1 h
    rw [write_record]
    exact hvs.writeFields_eq_ok (fun f hf => (hfields f hf).reencodes) fun x hx =>
      field_record (hvs.names ▸ hnames) hx
  separates := by
    intro v w p q hv hw h
    obtain ⟨vs, hvs, rfl⟩ := encodes_record_iff.1 hv
    obtain ⟨ws, hws, rfl⟩ := encodes_record_iff.1 hw
    obtain ⟨xs, rfl, hsnd, hxs⟩ := h.record_left htype
    rw [Value.record.injEq] at hsnd
    rw [hsnd.2] at hws
    exact hvs.separates hws hfields fun x hx => (hxs x hx).2

/-! ## Unions of records -/

/-- The type of the records that a codec reads. -/
def recordType? : Codec → Option String
  | struct _ _ (.record type) _ => some type
  | _ => none

/-- **Record variants**: each has a tag of its own in one byte, and a record type of its own. -/
structure RecordVariants (variants : List (Nat × String × Codec)) : Prop where
  small : ∀ x ∈ variants, x.1 < 256
  typed : ∀ x ∈ variants, ∃ type, type ≠ "Lib" ∧ recordType? x.2.2 = some type
  tags : variants.Pairwise fun x y => x.1 ≠ y.1
  types : variants.Pairwise fun x y => recordType? x.2.2 ≠ recordType? y.2.2

/-- A codec with a record type is a struct. -/
theorem recordType?_eq_some {c : Codec} {type : String} :
    recordType? c = some type ↔
      ∃ name fields wrapped, c = struct name fields (.record type) wrapped := by
  constructor
  · intro h
    unfold recordType? at h
    split at h
    · cases h
      exact ⟨_, _, _, rfl⟩
    · cases h
  · rintro ⟨name, fields, wrapped, rfl⟩
    rfl

/-- A codec with a record type reads records of this type. -/
theorem Encodes.exists_record {c : Codec} {type : String} (hc : recordType? c = some type)
    {v : Value} {p : Octets} (h : c.Encodes v p) : ∃ fields, v = .record type fields := by
  obtain ⟨name, fields, wrapped, rfl⟩ := recordType?_eq_some.1 hc
  obtain ⟨vs, -, rfl⟩ := encodes_record_iff.1 h
  exact ⟨vs, rfl⟩

/-- Items are told apart by what they pairwise differ in. -/
theorem eq_of_pairwise_ne {α β : Type} {f : α → β} {items : List α}
    (h : items.Pairwise fun x y => f x ≠ f y) {x y : α} (hx : x ∈ items) (hy : y ∈ items)
    (he : f x = f y) : x = y :=
  List.Pairwise.forall_of_forall_of_flip (R := fun x y => f x = f y → x = y) (fun _ _ _ => rfl)
    (h.imp fun hne he => absurd he hne) (h.imp fun hne he => absurd he.symm hne) hx hy he

namespace RecordVariants

variable {x : Nat × String × Codec} {variants : List (Nat × String × Codec)}

/-- The variants behind the first one are record variants. -/
theorem tail (h : RecordVariants (x :: variants)) : RecordVariants variants where
  small y hy := h.small y (List.mem_cons_of_mem x hy)
  typed y hy := h.typed y (List.mem_cons_of_mem x hy)
  tags := (List.pairwise_cons.1 h.tags).2
  types := (List.pairwise_cons.1 h.types).2

/-- A payload is read under the variant with the tag. -/
theorem encodesVariant_iff (h : RecordVariants variants) {tag : Nat} {v : Value} {p : Octets} :
    EncodesVariant tag variants v p ↔ ∃ x ∈ variants, x.1 = tag ∧ x.2.2.Encodes v p := by
  induction variants with
  | nil => simp [EncodesVariant]
  | cons y variants ih =>
    obtain ⟨t, name, c⟩ := y
    obtain ⟨type, -, htype⟩ := h.typed _ (List.mem_cons_self ..)
    have hdiscriminated : c.discriminated = true := by
      obtain ⟨name, fields, wrapped, rfl⟩ := recordType?_eq_some.1 htype
      rfl
    have htags := (List.pairwise_cons.1 h.tags).1
    rw [EncodesVariant]
    by_cases ht : t = tag
    · simp only [hdiscriminated, if_true, exists_eq_right', List.mem_cons, exists_eq_or_imp, ht,
        true_and]
      constructor
      · exact .inl
      · rintro (hv | ⟨x, hx, htag, -⟩)
        · exact hv
        · exact absurd (ht.trans htag.symm) (htags x hx)
    · simp only [if_false, ih h.tail, List.mem_cons, exists_eq_or_imp, ht, false_and, false_or]

/-- A record is written under the variant of its type. -/
theorem writeAccepted_eq_ok (h : RecordVariants variants) {union type : String}
    {fields : List (String × Value)} {p : Octets} :
    writeAccepted union variants (.record type fields) = .ok p ↔
      ∃ x ∈ variants, recordType? x.2.2 = some type ∧
        ∃ q, x.2.2.write (.record type fields) = .ok q ∧ p = UInt8.ofNat x.1 :: q := by
  induction variants with
  | nil => simp [writeAccepted]
  | cons y variants ih =>
    obtain ⟨t, name, c⟩ := y
    obtain ⟨type', -, htype⟩ := h.typed _ (List.mem_cons_self ..)
    have haccepts : c.accepts (.record type fields) = (type' == type) := by
      obtain ⟨name, fields, wrapped, rfl⟩ := recordType?_eq_some.1 htype
      rfl
    have htypes := (List.pairwise_cons.1 h.types).1
    rw [writeAccepted, haccepts]
    simp only [List.mem_cons, exists_eq_or_imp]
    by_cases ht : type' = type
    · subst ht
      simp only [beq_self_eq_true, if_true, bind_eq_ok, inside_eq_ok, pure_eq_ok, htype, true_and]
      constructor
      · rintro ⟨q, hq, rfl⟩
        exact .inl ⟨q, hq, rfl⟩
      · rintro (⟨q, hq, rfl⟩ | ⟨x, hx, htype', -⟩)
        · exact ⟨q, hq, rfl⟩
        · exact absurd (htype.trans htype'.symm) (htypes x hx)
    · have hne : ¬ recordType? c = some type := by
        rw [htype]
        exact fun he => ht (Option.some.inj he)
      simp only [beq_iff_eq, ht, if_false, ih h.tail, hne, false_and, false_or]

/-- A record type determines its variant. -/
theorem eq_of_type (h : RecordVariants variants) {x y : Nat × String × Codec} (hx : x ∈ variants)
    (hy : y ∈ variants) (he : recordType? x.2.2 = recordType? y.2.2) : x = y :=
  eq_of_pairwise_ne h.types hx hy he

end RecordVariants

/-- A record is written by a union under the variant that it says to be of. -/
theorem write_union_record {name type : String} {variants : List (Nat × String × Codec)}
    {fields : List (String × Value)} :
    (union name variants).write (.record type fields) =
      writeAccepted name variants (.record type fields) := by
  rw [write]
  nofun

/-- Unions of canonical records are canonical. -/
@[simp] theorem canonical_union {name : String} {variants : List (Nat × String × Codec)}
    (h : RecordVariants variants) (hvariants : ∀ x ∈ variants, Canonical x.2.2) :
    Canonical (union name variants) where
  write_eq_ok := by
    rintro v p ⟨tag, q, rfl, hv⟩
    obtain ⟨x, hx, htag, hv⟩ := h.encodesVariant_iff.1 hv
    obtain ⟨type, -, htype⟩ := h.typed x hx
    obtain ⟨fields, rfl⟩ := hv.exists_record htype
    rw [write_union_record]
    refine h.writeAccepted_eq_ok.2 ⟨x, hx, htype, q, (hvariants x hx).write_eq_ok hv, ?_⟩
    rw [htag, UInt8.ofNat_toNat]
  separates := by
    rintro v w p q ⟨tag, p, rfl, hv⟩ ⟨tag', q, rfl, hw⟩ halike
    obtain ⟨x, hx, htag, hv⟩ := h.encodesVariant_iff.1 hv
    obtain ⟨y, hy, htag', hw⟩ := h.encodesVariant_iff.1 hw
    obtain ⟨type, hlib, htype⟩ := h.typed x hx
    obtain ⟨type', -, htype'⟩ := h.typed y hy
    obtain ⟨fields, rfl⟩ := hv.exists_record htype
    obtain ⟨fields', rfl⟩ := hw.exists_record htype'
    obtain ⟨xs, -, hsame, -⟩ := halike.record_left hlib
    have hxy : x = y := h.eq_of_type hx hy (by rw [htype, htype', (Value.record.inj hsame).1])
    subst hxy
    rw [(hvariants x hx).separates hv hw halike, UInt8.toNat_inj.1 (htag.symm.trans htag')]

/-! ## Keyed codecs -/

/-- Identifiers are keys, told apart by their bytes. -/
@[simp] theorem keyed_id (kind : IdKind) : Keyed (id kind) where
  isKey := by
    rintro v p ⟨x, rfl, -⟩
    rfl
  hasLabel := by
    rintro v p ⟨x, rfl, -⟩
    exact ⟨_, rfl⟩
  apart := by
    rintro v w p q ⟨x, rfl, rfl⟩ ⟨y, rfl, rfl⟩ h
    simp only [Value.same, Value.octets?, beq_iff_eq, Option.some.injEq] at h
    exact h.symm

/-- Unsigned integers are keys, told apart by their numbers. -/
@[simp] theorem keyed_uint (size : Nat) : Keyed (uint size) where
  isKey := by
    rintro v p ⟨rfl, -⟩
    rfl
  hasLabel := by
    rintro v p ⟨rfl, -⟩
    exact ⟨_, rfl⟩
  apart := by
    rintro v w p q ⟨rfl, rfl⟩ ⟨rfl, hq⟩ h
    simp only [Value.same, Value.number?, beq_iff_eq, Option.some.injEq] at h
    exact eq_of_toNat_eq hq.symm (by omega)

/-- The same fields are read from the same encodings. -/
theorem EncodesFields.apart {fields : List (String × Codec)} {vs ws : List (String × Value)}
    {p q : Octets} (hp : EncodesFields fields vs p) (hq : EncodesFields fields ws q)
    (hfields : ∀ f ∈ fields, Keyed f.2) (h : Value.sameFields vs ws = true) : p = q := by
  induction fields generalizing vs ws p q with
  | nil => rw [hp.2, hq.2]
  | cons f fields ih =>
    obtain ⟨v, vs, p₁, p₂, rfl, rfl, hv, hp₂⟩ := hp
    obtain ⟨w, ws, q₁, q₂, rfl, rfl, hw, hq₂⟩ := hq
    rw [List.forall_mem_cons] at hfields
    simp only [Value.sameFields, Bool.and_eq_true] at h
    rw [hfields.1.apart hv hw h.1.2, ih hp₂ hq₂ hfields.2 h.2]

/-- Fields read are keys when their codecs read keys. -/
theorem EncodesFields.haveKeys {fields : List (String × Codec)} {vs : List (String × Value)}
    {p : Octets} (hp : EncodesFields fields vs p) (hfields : ∀ f ∈ fields, Keyed f.2) :
    Value.haveKeys vs = true := by
  induction fields generalizing vs p with
  | nil =>
    obtain ⟨rfl, -⟩ := hp
    rfl
  | cons f fields ih =>
    obtain ⟨v, vs, p₁, p₂, rfl, rfl, hv, hp₂⟩ := hp
    rw [List.forall_mem_cons] at hfields
    rw [Value.haveKeys, hfields.1.isKey hv, ih hp₂ hfields.2]
    rfl

/-- The types whose records have a comparison of their own. -/
def comparedTypes : List String := ["Lib", "WitnessTxid", "WitnessTx"]

/-- Records of keyed fields are keyed, unless they have a comparison of their own. -/
@[simp] theorem keyed_record {name type : String} {fields : List (String × Codec)} {wrapped : Bool}
    (htype : type ∉ comparedTypes) (hfields : ∀ f ∈ fields, Keyed f.2) :
    Keyed (struct name fields (.record type) wrapped) where
  isKey := by
    intro v p h
    obtain ⟨vs, hvs, rfl⟩ := encodes_record_iff.1 h
    exact hvs.haveKeys hfields
  hasLabel := by
    intro v p h
    obtain ⟨vs, hvs, rfl⟩ := encodes_record_iff.1 h
    exact ⟨_, rfl⟩
  apart := by
    intro v w p q hv hw h
    obtain ⟨vs, hvs, rfl⟩ := encodes_record_iff.1 hv
    obtain ⟨ws, hws, rfl⟩ := encodes_record_iff.1 hw
    simp only [comparedTypes, List.mem_cons, List.not_mem_nil, or_false, not_or] at htype
    obtain ⟨hlib, htxid, htx⟩ := htype
    have hwitnessed : (Value.record type vs).witnessed? = none := by
      unfold Value.witnessed?
      split <;> simp_all
    rw [Value.same.eq_def] at h
    simp only [hwitnessed, Value.octets?_record hlib, Bool.and_eq_true] at h
    exact hvs.apart hws hfields h.2

end Codec

end StrictContract
