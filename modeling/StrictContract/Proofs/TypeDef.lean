import StrictContract.Proofs.Codec.Readable
import StrictContract.Proofs.Codec.Recovery
import StrictContract.Proofs.Codec.Written
import StrictContract.Proofs.Value.Order
import StrictContract.TypeDef

/-! # Type definitions — their encodings and their drafts

The codec of definitions is canonical and reads definitions in **normal form**, in which the variants
of a union ascend. A definition in normal form is read back exactly from what it is written as, and
is the definition that its draft stands for. Rearranging the variants of a draft changes neither its
bytes nor its validity. -/

namespace StrictContract

open Codec

namespace TypeDef

/-- The variants of the codec of definitions. -/
def variants : List (Nat × String × Codec) :=
  match codec with
  | .union _ variants => variants
  | _ => []

/-- Every kind of definition has a tag and a record type of its own. -/
theorem recordVariants : RecordVariants variants := by
  constructor <;> simp [variants, codec, recordType?]

/-- The codec of bounds is canonical. -/
@[simp] theorem canonical_sizingCodec : Canonical sizingCodec := by
  simp [sizingCodec]

/-- The codec of names is canonical. -/
@[simp] theorem canonical_identCodec : Canonical identCodec := canonical_ascii ..

/-- The codec of definitions is canonical. -/
@[simp] theorem canonical_codec : Canonical codec := by
  have hmember : Canonical (.struct "EnumVariant" [("name", identCodec), ("tag", .uint 1)]
      (.record "EnumVariant") false) := by simp
  have hvariant : Canonical (.struct "UnionVariant" [("name", identCodec), ("ty", .id .sem)]
      (.record "UnionVariant") false) := by simp
  have hfield : Canonical (.struct "FieldDef" [("name", identCodec), ("ty", .id .sem)]
      (.record "FieldDef") false) := by simp
  refine canonical_union recordVariants ?_
  simp [hmember, hvariant, hfield]

end TypeDef

namespace Draft

/-- The codec of definitions recovers every draft. -/
theorem recovers (d : Draft) : Recovers TypeDef.codec d.toValue := by
  have hsizing : ∀ min max, Recovers TypeDef.sizingCodec (sizingValue min max) := by
    intro min max
    exact recovers_record (by decide) (by decide) (by simp [RecoversFields])
  have hname : ∀ v, Recovers TypeDef.identCodec v := fun v => recovers_ascii _ _ _ _ v
  have hmember : ∀ m : Value × Value, Recovers (.struct "EnumVariant"
      [("name", TypeDef.identCodec), ("tag", .uint 1)] (.record "EnumVariant") false)
      (.record "EnumVariant" [("name", m.1), ("tag", m.2)]) := fun m =>
    recovers_record (by decide) (by decide) (by simp [RecoversFields, hname])
  have hvariant : ∀ x : Value × SemId, Recovers (.struct "UnionVariant"
      [("name", TypeDef.identCodec), ("ty", .id .sem)] (.record "UnionVariant") false)
      (.record "UnionVariant" [("name", x.1), ("ty", idValue x.2)]) := fun x =>
    recovers_record (by decide) (by decide) (by simp [RecoversFields, hname])
  have hfield : ∀ f : Value × SemId, Recovers (.struct "FieldDef"
      [("name", TypeDef.identCodec), ("ty", .id .sem)] (.record "FieldDef") false)
      (.record "FieldDef" [("name", f.1), ("ty", idValue f.2)]) := fun f =>
    recovers_record (by decide) (by decide) (by simp [RecoversFields, hname])
  refine recovers_union TypeDef.recordVariants ?_
  -- of the ten variants the one of the kind of the draft is left
  cases d <;>
    simp only [TypeDef.variants, TypeDef.codec, List.forall_mem_cons, recordType?,
      Definition.kindName, Option.some.injEq, String.reduceEq, false_implies, true_implies, true_and,
      List.not_mem_nil, implies_true, and_true] <;>
    refine recovers_record (by decide) (by decide) ?_ <;>
    simp [RecoversFields, hsizing, hmember, hvariant, hfield]

end Draft

/-! ## Normal form -/

namespace TypeDef

/-- A definition in **normal form**: the tags of a union ascend. -/
def Normal : TypeDef → Prop
  | .union variants => variants.Pairwise fun x y => x.1 < y.1
  | _ => True

/-- Of two numbers in one byte the smaller one has the smaller byte. -/
theorem lt_of_precedes {m n : Nat} (h : (Codec.uint 1).Precedes (.ofNat m) (.ofNat n)) : m < n := by
  obtain ⟨p, q, ⟨hp, hplength⟩, ⟨hq, hqlength⟩, hlt⟩ := h
  obtain ⟨a, rfl⟩ := List.length_eq_one_iff.1 hplength
  obtain ⟨b, rfl⟩ := List.length_eq_one_iff.1 hqlength
  simp only [Value.ofNat, Value.int.injEq, Octets.toNat_cons, Octets.toNat_nil] at hp hq
  have hab : a < b := by simpa [List.cons_lt_cons_iff] using hlt
  have := UInt8.lt_iff_toNat_lt.1 hab
  omega

/-- The codec of definitions reads definitions in normal form. -/
theorem reads_codec {v : Value} (hv : codec.Readable v) : ∃ d : TypeDef, d.Normal ∧ d.toValue = v := by
  have hname : Reads identCodec .text := reads_ascii _ _ _ _
  have hsizing : Reads sizingCodec fun b : Nat × Nat =>
      Draft.sizingValue (.ofNat b.1) (.ofNat b.2) := by
    intro v hv
    simp only [sizingCodec, readable_record, readableFields_cons, readableFields_nil] at hv
    obtain ⟨_, ⟨min, hmin, _, ⟨max, hmax, _, rfl, rfl⟩, rfl⟩, rfl⟩ := hv
    obtain ⟨min, rfl⟩ := reads_uint _ _ hmin
    obtain ⟨max, rfl⟩ := reads_uint _ _ hmax
    exact ⟨(min, max), rfl⟩
  have hmember : Reads (.struct "EnumVariant" [("name", identCodec), ("tag", .uint 1)]
      (.record "EnumVariant") false) fun m : String × Nat =>
        .record "EnumVariant" [("name", .text m.1), ("tag", .ofNat m.2)] := by
    intro v hv
    simp only [readable_record, readableFields_cons, readableFields_nil] at hv
    obtain ⟨_, ⟨name, hn, _, ⟨tag, ht, _, rfl, rfl⟩, rfl⟩, rfl⟩ := hv
    obtain ⟨name, rfl⟩ := hname _ hn
    obtain ⟨tag, rfl⟩ := reads_uint _ _ ht
    exact ⟨(name, tag), rfl⟩
  have hnamed : ∀ type : String, Reads (.struct type [("name", identCodec), ("ty", .id .sem)]
      (.record type) false) fun f : String × SemId =>
        .record type [("name", .text f.1), ("ty", Draft.idValue f.2)] := by
    intro type v hv
    simp only [readable_record, readableFields_cons, readableFields_nil] at hv
    obtain ⟨_, ⟨name, hn, _, ⟨sid, hs, _, rfl, rfl⟩, rfl⟩, rfl⟩ := hv
    obtain ⟨name, rfl⟩ := hname _ hn
    obtain ⟨sid, rfl⟩ := reads_id _ _ hs
    exact ⟨(name, sid), rfl⟩
  have h := (readable_union recordVariants).1 hv
  simp only [variants, codec, List.mem_cons, List.not_mem_nil, or_false, exists_eq_or_imp,
    exists_eq_left, readable_record, readableFields_cons, readableFields_nil] at h
  rcases h with ⟨_, ⟨width, hw, _, rfl, rfl⟩, rfl⟩ | ⟨_, rfl, rfl⟩ | ⟨_, ⟨ms, hms, _, rfl, rfl⟩, rfl⟩ |
    ⟨_, ⟨es, hes, _, rfl, rfl⟩, rfl⟩ | ⟨_, ⟨is, his, _, rfl, rfl⟩, rfl⟩ |
    ⟨_, ⟨fs, hfs, _, rfl, rfl⟩, rfl⟩ | ⟨_, ⟨item, hi, _, ⟨len, hl, _, rfl, rfl⟩, rfl⟩, rfl⟩ |
    ⟨_, ⟨item, hi, _, ⟨b, hb, _, rfl, rfl⟩, rfl⟩, rfl⟩ |
    ⟨_, ⟨item, hi, _, ⟨b, hb, _, rfl, rfl⟩, rfl⟩, rfl⟩ |
    ⟨_, ⟨key, hk, _, ⟨value, hx, _, ⟨b, hb, _, rfl, rfl⟩, rfl⟩, rfl⟩, rfl⟩
  · obtain ⟨width, rfl⟩ := reads_uint _ _ hw
    exact ⟨.primitive width, trivial, rfl⟩
  · exact ⟨.unicode, trivial, rfl⟩
  · obtain ⟨ms, rfl⟩ := reads_list hmember _ _ _ hms
    refine ⟨.enumeration ms, trivial, ?_⟩
    simp [toValue, toDraft, Definition.mapParts, Draft.toValue, Function.comp_def, Definition.kindName]
  · obtain ⟨es, rfl, hlt⟩ := exists_mapping (keyed_uint 1) (reads_uint 1) (hnamed "UnionVariant") hes
    refine ⟨.union es, hlt.imp lt_of_precedes, ?_⟩
    simp [toValue, toDraft, Definition.mapParts, Draft.toValue, Function.comp_def, Definition.kindName]
  · obtain ⟨is, rfl⟩ := reads_list (reads_id .sem) _ _ _ his
    exact ⟨.tuple is, trivial, rfl⟩
  · obtain ⟨fs, rfl⟩ := reads_list (hnamed "FieldDef") _ _ _ hfs
    refine ⟨.struct fs, trivial, ?_⟩
    simp [toValue, toDraft, Definition.mapParts, Draft.toValue, Function.comp_def, Definition.kindName]
  · obtain ⟨item, rfl⟩ := reads_id _ _ hi
    obtain ⟨len, rfl⟩ := reads_uint _ _ hl
    exact ⟨.array item len, trivial, rfl⟩
  · obtain ⟨item, rfl⟩ := reads_id _ _ hi
    obtain ⟨b, rfl⟩ := hsizing _ hb
    exact ⟨.list item b.1 b.2, trivial, rfl⟩
  · obtain ⟨item, rfl⟩ := reads_id _ _ hi
    obtain ⟨b, rfl⟩ := hsizing _ hb
    exact ⟨.set item b.1 b.2, trivial, rfl⟩
  · obtain ⟨key, rfl⟩ := reads_id _ _ hk
    obtain ⟨value, rfl⟩ := reads_id _ _ hx
    obtain ⟨b, rfl⟩ := hsizing _ hb
    exact ⟨.map key value b.1 b.2, trivial, rfl⟩

/-- Definitions in normal form are equal when their records are alike. -/
theorem eq_of_alike {d e : TypeDef} (hd : d.Normal) (he : e.Normal)
    (h : d.toValue.Alike e.toValue) : d = e := by
  have hmember : ∀ a b : String × Nat,
      Value.Alike (.record "EnumVariant" [("name", .text a.1), ("tag", .ofNat a.2)])
        (.record "EnumVariant" [("name", .text b.1), ("tag", .ofNat b.2)]) → a = b := by
    intro a b h
    simpa [Value.Alike.record_iff, Value.Alike.Fields, Prod.ext_iff] using h
  have hnamed : ∀ type : String, type ≠ "Lib" → ∀ a b : String × SemId,
      Value.Alike (.record type [("name", .text a.1), ("ty", Draft.idValue a.2)])
        (.record type [("name", .text b.1), ("ty", Draft.idValue b.2)]) → a = b := by
    intro type ht a b h
    simpa [Value.Alike.record_iff ht, Value.Alike.Fields, Draft.idValue, Prod.ext_iff] using h
  cases d <;> cases e <;>
    simp only [toValue, toDraft, Definition.mapParts, Draft.toValue, Definition.kindName,
      List.map_map] at h <;>
    simp [Value.Alike.record_iff, Value.Alike.Fields, Draft.sizingValue, Draft.idValue] at h ⊢
  case primitive.primitive => exact h
  case enumeration.enumeration => exact Value.Alike.eq_of_tuple hmember h
  case union.union as bs =>
    have hperm : as.Perm bs := Value.Alike.perm_of_map (fun a b hk hv =>
      Prod.ext (Value.Alike.ofNat_iff.1 hk) (hnamed "UnionVariant" (by decide) _ _ hv)) h
    -- two arrangements with ascending tags are the same
    refine hperm.eq_of_pairwise (fun a b _ _ hab hba => ?_) hd he
    exact absurd hba (Nat.lt_asymm hab)
  case tuple.tuple => exact Value.Alike.eq_of_tuple (fun a b => Value.Alike.id_iff.1) h
  case struct.struct => exact Value.Alike.eq_of_tuple (hnamed "FieldDef" (by decide)) h
  all_goals exact h

/-- A definition in normal form is read back exactly. -/
theorem encodes_of_encode_eq_ok {d : TypeDef} (hd : d.Normal) {p : Octets}
    (h : d.toDraft.encode = .ok p) : codec.Encodes d.toValue p := by
  obtain ⟨v, hv, halike⟩ := d.toDraft.recovers p h
  obtain ⟨e, he, rfl⟩ := reads_codec ⟨p, hv⟩
  rwa [eq_of_alike hd he halike]

end TypeDef

/-! ## Drafts -/

/-- A loop of which every round gives its item back gives the whole list back. -/
theorem mapM_eq_some_self {α : Type} {f : α → Option α} (h : ∀ a, f a = some a) (xs : List α) :
    xs.mapM f = some xs := by
  induction xs with
  | nil => rfl
  | cons x xs ih => rw [List.mapM_cons, h, ih]; rfl

@[simp] theorem Value.part?_record (type name : String) (fields : List (String × Value)) :
    (record type fields).part? name = fields.lookup name := rfl

@[simp] theorem Value.id?_id {kind : IdKind} (x : Id kind) : (id kind x).id? kind = some x := by
  rw [id?, if_pos rfl]
  rfl

namespace Draft

/-- The record of a draft describes it. -/
theorem ofValue?_toValue (d : Draft) : ofValue? d.toValue = some d := by
  cases d <;>
    simp [ofValue?, toValue, Definition.kindName, Value.sequence?, sizingOf?, sizingValue, idValue,
      List.lookup_cons, mapM_eq_some_self]

/-- The values that stand for natural numbers. -/
theorem naturalOf?_eq_some {v : Value} {n : Nat} : naturalOf? v = some n ↔ v.number? = some (n : Int) := by
  unfold naturalOf?
  cases v.number? with
  | none => simp
  | some m =>
    simp only [Option.bind_some, Option.ite_none_right_eq_some, Option.some.injEq]
    omega

@[simp] theorem naturalOf?_ofNat (n : Nat) : naturalOf? (.ofNat n) = some n :=
  naturalOf?_eq_some.2 rfl

/-- A value that is alike to a natural number stands for it. -/
theorem naturalOf?_of_alike {v : Value} {n : Nat} (h : v.Alike (.ofNat n)) : naturalOf? v = some n :=
  naturalOf?_eq_some.2 (h.symm.number_left rfl)

/-- The values that are names. -/
theorem nameOf?_eq_some {v : Value} {s : String} : nameOf? v = some s ↔ v = .text s := by
  unfold nameOf?
  cases v <;> simp

/-- A value that is alike to a name is this name. -/
theorem nameOf?_of_alike {v : Value} {s : String} (h : v.Alike (.text s)) : nameOf? v = some s :=
  nameOf?_eq_some.2 h.symm.text_left

/-- A map is written in one way, whatever the order of its entries. -/
theorem write_mapping_of_perm {key value : Codec} {b : Bounds} {label : Option String}
    {xs ys : List (Value × Value)} (h : ys.Perm xs) {p : Octets}
    (hp : (Codec.map key value b .mapping label).write (.map xs) = .ok p) :
    (Codec.map key value b .mapping label).write (.map ys) = .ok p := by
  obtain ⟨es, fs, rfl, hes, hperm, hlt, hn, rfl⟩ := write_mapping_eq_ok.1 hp
  obtain ⟨es', hes', rfl⟩ := exists_perm_of_perm_map h
  exact write_mapping_eq_ok.2 ⟨es', fs, rfl, fun e he => hes e (hes'.mem_iff.1 he),
    hperm.trans hes'.symm, hlt, hn, rfl⟩

/-- A union is written as its map of variants behind the tag of unions. -/
theorem encode_union_eq_ok {xs : List (Value × Value × SemId)} {p : Octets} :
    encode (.union xs) = .ok p ↔ ∃ q, (Codec.map (.uint 1)
      (.struct "UnionVariant" [("name", TypeDef.identCodec), ("ty", .id .sem)]
        (.record "UnionVariant") false) TypeDef.partBounds .mapping none).write
      (.map (xs.map fun (tag, name, ty) =>
        (tag, .record "UnionVariant" [("name", name), ("ty", idValue ty)]))) = .ok q ∧
      p = 3 :: q := by
  have hcodec : TypeDef.codec = .union "TypeDefinition" TypeDef.variants := rfl
  rw [encode, hcodec, toValue, write_union_record, TypeDef.recordVariants.writeAccepted_eq_ok]
  simp only [TypeDef.variants, TypeDef.codec, List.mem_cons, List.not_mem_nil, or_false,
    exists_eq_or_imp, exists_eq_left, recordType?, Definition.kindName, Option.some.injEq,
    String.reduceEq, false_and, false_or, true_and, write_record, writeFields]
  simp [bind_eq_ok, Value.field, Value.feature?]

/-- A draft that differs from another one at most in the order of the variants of a union. -/
inductive Rearranged : Draft → Draft → Prop
  | refl (d : Draft) : Rearranged d d
  | union {xs ys : List (Value × Value × SemId)} : ys.Perm xs → Rearranged (.union xs) (.union ys)

namespace Rearranged

variable {d e : Draft}

/-- Rearranged drafts have the same bytes. -/
theorem encode_eq_ok (h : Rearranged d e) {p : Octets} (hp : d.encode = .ok p) :
    e.encode = .ok p := by
  cases h with
  | refl => exact hp
  | union h =>
    obtain ⟨q, hq, rfl⟩ := encode_union_eq_ok.1 hp
    exact encode_union_eq_ok.2 ⟨q, write_mapping_of_perm (h.map _) hq, rfl⟩

end Rearranged

/-- A loop that finds something for every item pairs the items with what it finds. -/
theorem mapM_eq_some {α β : Type} {f : α → Option β} {xs : List α} {ys : List β} :
    xs.mapM f = some ys ↔ ∃ ps : List (α × β), xs = ps.map Prod.fst ∧ ys = ps.map Prod.snd ∧
      ∀ q ∈ ps, f q.1 = some q.2 := by
  induction xs generalizing ys with
  | nil =>
    simp only [List.mapM_nil, Option.pure_def, Option.some.injEq, List.nil_eq, List.map_eq_nil_iff]
    constructor
    · rintro rfl
      exact ⟨[], rfl, rfl, nofun⟩
    · rintro ⟨ps, rfl, rfl, -⟩
      rfl
  | cons x xs ih =>
    simp only [List.mapM_cons, Option.bind_eq_bind, Option.bind_eq_some_iff, Option.pure_def,
      Option.some.injEq, ih]
    constructor
    · rintro ⟨y, hy, ys, ⟨ps, rfl, rfl, hps⟩, rfl⟩
      exact ⟨(x, y) :: ps, rfl, rfl, List.forall_mem_cons.2 ⟨hy, hps⟩⟩
    · rintro ⟨ps, hxs, rfl, hps⟩
      obtain ⟨q, ps, rfl, rfl, rfl⟩ := List.map_eq_cons_iff.1 hxs.symm
      rw [List.forall_mem_cons] at hps
      exact ⟨q.2, hps.1, _, ⟨ps, rfl, rfl, hps.2⟩, rfl⟩

/-- The pairs of a loop are told by its results. -/
theorem map_of_mapM_eq_some {α β : Type} {f : α → Option β} {g : β → α}
    (h : ∀ a b, f a = some b → g b = a) {xs : List α} {ys : List β} (hxs : xs.mapM f = some ys) :
    ys.map g = xs := by
  obtain ⟨ps, rfl, rfl, hps⟩ := mapM_eq_some.1 hxs
  rw [List.map_map]
  exact List.map_congr_left fun q hq => h _ _ (hps q hq)

/-- A draft whose record is alike to that of a definition in normal form is this definition. -/
theorem definition?_of_alike {d : Draft} {k : TypeDef} (hk : k.Normal)
    (h : d.toValue.Alike k.toValue) : d.definition? = some k := by
  cases d <;> cases k <;>
    simp only [TypeDef.toValue, TypeDef.toDraft, Definition.mapParts, toValue, Definition.kindName,
      List.map_map] at h <;>
    simp [Value.Alike.record_iff, Value.Alike.Fields, sizingValue, idValue] at h
  case primitive.primitive => simp [definition?, naturalOf?_of_alike h]
  case unicode.unicode => rfl
  case enumeration.enumeration =>
    obtain ⟨ps, rfl, rfl, hps⟩ := Value.Alike.exists_pairs_of_tuple h
    refine Option.bind_eq_some_iff.2 ⟨_, mapM_eq_some.2 ⟨ps, rfl, rfl, fun q hq => ?_⟩, rfl⟩
    have hq := hps q hq
    simp [Value.Alike.record_iff, Value.Alike.Fields] at hq
    simp [nameOf?_of_alike hq.1, naturalOf?_of_alike hq.2]
  case union.union xs ks =>
    obtain ⟨ps, rfl, hks, hps⟩ := Value.Alike.exists_pairs_of_map h
    refine Option.bind_eq_some_iff.2 ⟨_, mapM_eq_some.2 ⟨ps, rfl, rfl, fun q hq => ?_⟩, ?_⟩
    · have hq := hps q hq
      simp only [Value.Alike.record_iff (show "UnionVariant" ≠ "Lib" by decide), Value.Alike.Fields,
        true_and, and_true, Value.Alike.id_iff] at hq
      simp [naturalOf?_of_alike hq.1, nameOf?_of_alike hq.2.1, hq.2.2]
    · -- the variants in ascending order are those of the definition
      have hnodup : ((ps.map Prod.snd).map Prod.fst).Nodup :=
        (hks.map Prod.fst).nodup_iff.1 (List.pairwise_map.2 (hk.imp Nat.ne_of_lt))
      exact congrArg (some ∘ Definition.union) (eq_of_perm_of_ascending Prod.fst
        ((List.mergeSort_perm _ _).trans hks.symm)
        (List.pairwise_map.2 (pairwise_lt_mergeSort Prod.fst hnodup)) (List.pairwise_map.2 hk))
  case tuple.tuple =>
    obtain ⟨ps, rfl, rfl, hps⟩ := Value.Alike.exists_pairs_of_tuple h
    exact congrArg (some ∘ Definition.tuple)
      (List.map_congr_left fun q hq => Value.Alike.id_iff.1 (hps q hq))
  case struct.struct =>
    obtain ⟨ps, rfl, rfl, hps⟩ := Value.Alike.exists_pairs_of_tuple h
    refine Option.bind_eq_some_iff.2 ⟨_, mapM_eq_some.2 ⟨ps, rfl, rfl, fun q hq => ?_⟩, rfl⟩
    have hq := hps q hq
    simp [Value.Alike.record_iff, Value.Alike.Fields] at hq
    simp [nameOf?_of_alike hq.1, hq.2]
  case array.array => simp [definition?, h.1, naturalOf?_of_alike h.2]
  case list.list | set.set =>
    simp [definition?, h.1, naturalOf?_of_alike h.2.1, naturalOf?_of_alike h.2.2]
  case map.map =>
    simp [definition?, h.1, h.2.1, naturalOf?_of_alike h.2.2.1, naturalOf?_of_alike h.2.2.2]

/-- A draft with an encoding is a definition in normal form with the same encoding. -/
theorem exists_definition?_of_encode {d : Draft} {p : Octets} (hp : d.encode = .ok p) :
    ∃ k : TypeDef, d.definition? = some k ∧ k.Normal ∧ k.toDraft.encode = .ok p := by
  obtain ⟨v, hv, halike⟩ := d.recovers p hp
  obtain ⟨k, hk, rfl⟩ := TypeDef.reads_codec ⟨p, hv⟩
  exact ⟨k, definition?_of_alike hk halike, hk, TypeDef.canonical_codec.write_eq_ok hv⟩

/-- The definition that a draft with an encoding is is in normal form and has the same encoding. -/
theorem encode_of_definition? {d : Draft} {k : TypeDef} (h : d.definition? = some k) {p : Octets}
    (hp : d.encode = .ok p) : k.Normal ∧ k.toDraft.encode = .ok p := by
  obtain ⟨k', hk', hnormal, hencode⟩ := exists_definition?_of_encode hp
  obtain rfl : k = k' := Option.some.inj (h.symm.trans hk')
  exact ⟨hnormal, hencode⟩

/-- A draft refers to the same types as the definition that it is. -/
theorem references_of_definition? {d : Draft} {k : TypeDef} (h : d.definition? = some k) :
    k.references.Perm d.references := by
  cases d <;>
    simp only [definition?, Option.bind_eq_bind, Option.bind_eq_some_iff, Option.pure_def,
      Option.some.injEq, mapM_eq_some] at h
  case union =>
    obtain ⟨_, ⟨ps, rfl, rfl, hps⟩, rfl⟩ := h
    refine ((List.mergeSort_perm _ _).map _).trans (.of_eq ?_)
    rw [List.map_map, Definition.references, List.map_map]
    refine List.map_congr_left fun q hq => ?_
    obtain ⟨tag, -, name, -, heq⟩ := hps q hq
    exact (congrArg (fun x => x.2.2) heq).symm
  case struct =>
    obtain ⟨_, ⟨ps, rfl, rfl, hps⟩, rfl⟩ := h
    refine .of_eq ?_
    rw [Definition.references, Definition.references, List.map_map, List.map_map]
    refine List.map_congr_left fun q hq => ?_
    obtain ⟨name, -, heq⟩ := hps q hq
    exact (congrArg Prod.snd heq).symm
  case unicode | tuple =>
    subst h
    exact .refl _
  case primitive | enumeration | array =>
    obtain ⟨-, -, rfl⟩ := h
    exact .refl _
  case list | set | map =>
    obtain ⟨-, -, -, -, rfl⟩ := h
    exact .refl _

/-- A definition in normal form is what its draft is. -/
theorem definition?_toDraft {k : TypeDef} (hk : k.Normal) : definition? k.toDraft = some k :=
  definition?_of_alike hk (.refl _)

/-- The draft of a definition is a definition. -/
theorem exists_definition?_toDraft (k : TypeDef) : ∃ k', definition? k.toDraft = some k' := by
  have hname : ∀ s : String, nameOf? (.text s) = some s := fun s => nameOf?_eq_some.2 rfl
  cases k with
  | union variants =>
    simp [definition?, TypeDef.toDraft, Definition.mapParts, hname, mapM_eq_some_self]
  | _ => exact ⟨_, definition?_toDraft trivial⟩

/-! ### Validity -/

/-- Values are unique when they may be keys and none is the same key as an earlier one. -/
theorem checkUnique_eq_ok {what : String} {vs : List Value} :
    checkUnique what [] vs = .ok () ↔
      (∀ v ∈ vs, v.isKey = true) ∧ vs.Pairwise fun a b => b.same a = false := by
  have hloop : ∀ seen : List Value, checkUnique what seen vs = .ok () ↔
      (∀ v ∈ vs, v.isKey = true ∧ ∀ s ∈ seen, v.same s = false) ∧
        vs.Pairwise fun a b => b.same a = false := by
    induction vs with
    | nil => simp [checkUnique]
    | cons v vs ih =>
      intro seen
      rw [checkUnique, List.forall_mem_cons, List.pairwise_cons]
      cases hkey : v.isKey with
      | false => simp
      | true =>
        by_cases hseen : seen.any v.same = true
        · obtain ⟨s, hs, hsame⟩ := List.any_eq_true.1 hseen
          rw [if_neg (by decide), if_pos hseen]
          refine iff_of_false (by intro h; cases h) fun h => ?_
          exact Bool.false_ne_true ((h.1.1.2 s hs).symm.trans hsame)
        · rw [if_neg (by decide), if_neg hseen, ih]
          have hnew : ∀ s ∈ seen, v.same s = false := by simpa using hseen
          simp only [List.forall_mem_cons]
          grind
  simpa using hloop []

/-- Images under a function that keeps keys apart are unique when nothing occurs twice. -/
theorem checkUnique_map {α : Type} {f : α → Value} (hkey : ∀ a, (f a).isKey = true)
    (hsame : ∀ a b, (f a).same (f b) = true ↔ a = b) {what : String} {items : List α} :
    checkUnique what [] (items.map f) = .ok () ↔ items.Nodup := by
  have hapart : ∀ a b, (f b).same (f a) = false ↔ a ≠ b := by
    intro a b
    rw [← Bool.not_eq_true, hsame, ne_comm, ne_eq]
  simp [checkUnique_eq_ok, hkey, List.pairwise_map, hapart, List.Nodup]

/-- Names are unique when none occurs twice. -/
theorem checkUnique_text (what : String) {names : List String} :
    checkUnique what [] (names.map .text) = .ok () ↔ names.Nodup :=
  checkUnique_map (fun _ => rfl) (by simp [Value.same])

/-- Tags are unique when none occurs twice. -/
theorem checkUnique_ofNat (what : String) {tags : List Nat} :
    checkUnique what [] (tags.map .ofNat) = .ok () ↔ tags.Nodup :=
  checkUnique_map (fun _ => rfl) fun a b => by
    simp only [Value.same, Value.ofNat, Value.number?, beq_iff_eq, Option.some.injEq]
    omega

/-- Bounds are in order when the lower one does not exceed the upper one. -/
theorem checkSizing_ofNat {min max : Nat} :
    checkSizing (.ofNat min) (.ofNat max) = .ok () ↔ min ≤ max := by
  rw [checkSizing, Value.precedes_ofNat]
  by_cases h : max < min
  · rw [decide_eq_true h]
    exact iff_of_false (by intro h; cases h) (Nat.not_le.2 h)
  · rw [decide_eq_false h]
    exact iff_of_true rfl (Nat.not_lt.1 h)

/-- Texts that are unique are different. -/
theorem nodup_names_of_checkUnique {what : String} (qs : List (Value × String))
    (hqs : ∀ q ∈ qs, q.1 = .text q.2) (h : checkUnique what [] (qs.map Prod.fst) = .ok ()) :
    (qs.map Prod.snd).Nodup := by
  have htexts : qs.map Prod.fst = (qs.map Prod.snd).map .text := by
    rw [List.map_map]
    exact List.map_congr_left hqs
  exact (checkUnique_text what).1 (htexts ▸ h)

/-- Values that are unique stand for different numbers. -/
theorem nodup_numbers_of_checkUnique {what : String} (qs : List (Value × Nat))
    (hqs : ∀ q ∈ qs, q.1.number? = some (q.2 : Int))
    (h : checkUnique what [] (qs.map Prod.fst) = .ok ()) : (qs.map Prod.snd).Nodup := by
  have hapart := List.pairwise_map.1 (checkUnique_eq_ok.1 h).2
  refine List.pairwise_map.2 (hapart.imp_of_mem fun {a b} ha hb hsame heq => ?_)
  have hboth := (Value.same_iff_of_number? (hqs b hb)).2 (heq ▸ hqs a ha)
  exact Bool.false_ne_true (hsame.symm.trans hboth)

/-- Bounds that stand for numbers in order are in order. -/
theorem checkSizing_of_number? {v w : Value} {min max : Nat} (hv : v.number? = some (min : Int))
    (hw : w.number? = some (max : Int)) (h : checkSizing v w = .ok ()) :
    checkSizing (.ofNat min) (.ofNat max) = .ok () := by
  rw [checkSizing, Value.precedes_of_number? hw hv] at h
  by_cases hlt : (max : Int) < min
  · rw [decide_eq_true hlt] at h
    cases h
  · exact checkSizing_ofNat.2 (Int.ofNat_le.1 (Int.not_lt.1 hlt))

/-- The definition that a valid draft is is valid. -/
theorem validate_of_definition? {d : Draft} {k : TypeDef} (h : d.definition? = some k)
    (hd : d.validate = .ok ()) : k.toDraft.validate = .ok () := by
  cases d <;>
    simp only [definition?, Option.bind_eq_bind, Option.bind_eq_some_iff, Option.pure_def,
      Option.some.injEq, mapM_eq_some, naturalOf?_eq_some, nameOf?_eq_some] at h
  case primitive =>
    obtain ⟨n, hn, rfl⟩ := h
    rw [validate, hn] at hd
    by_cases hwidth : (n : Int) ∈ primitiveWidths
    · simp [TypeDef.toDraft, Definition.mapParts, validate, Value.ofNat, Value.number?, hwidth]
      rfl
    · rw [Option.any_some, Bool.eq_false_iff.2 (mt List.contains_iff_mem.1 hwidth)] at hd
      cases hd
  case enumeration =>
    obtain ⟨_, ⟨ps, rfl, rfl, hps⟩, rfl⟩ := h
    obtain ⟨_, hnames, htags⟩ := bind_eq_ok.1 hd
    have hparts : ∀ q ∈ ps, q.1.1 = .text q.2.1 ∧ q.1.2.number? = some (q.2.2 : Int) := by
      intro q hq
      obtain ⟨name, hname, tag, htag, heq⟩ := hps q hq
      rw [← heq]
      exact ⟨hname, htag⟩
    have hnodup := nodup_names_of_checkUnique (ps.map fun q => (q.1.1, q.2.1))
      (List.forall_mem_map.2 fun q hq => (hparts q hq).1)
      (by simpa [Function.comp_def] using hnames)
    have hnodup' := nodup_numbers_of_checkUnique (ps.map fun q => (q.1.2, q.2.2))
      (List.forall_mem_map.2 fun q hq => (hparts q hq).2)
      (by simpa [Function.comp_def] using htags)
    refine bind_eq_ok.2 ⟨(), ?_, ?_⟩
    · simpa [Function.comp_def] using (checkUnique_text "enum variant name").2 hnodup
    · simpa [Function.comp_def] using (checkUnique_ofNat "enum tag").2 hnodup'
  case union =>
    obtain ⟨_, ⟨ps, rfl, rfl, hps⟩, rfl⟩ := h
    have hname : ∀ q ∈ ps, q.1.2.1 = .text q.2.2.1 := by
      intro q hq
      obtain ⟨tag, -, name, hname, heq⟩ := hps q hq
      rw [← heq]
      exact hname
    have hnodup := nodup_names_of_checkUnique (ps.map fun q => (q.1.2.1, q.2.2.1))
      (List.forall_mem_map.2 hname)
      (by simpa [validate, Function.comp_def] using hd)
    -- sorting the variants only rearranges their names
    have hsorted := ((List.mergeSort_perm (ps.map Prod.snd) fun a b => decide (a.1 ≤ b.1)).map
      fun x => x.2.1).nodup_iff.2 (by simpa [Function.comp_def] using hnodup)
    simpa [TypeDef.toDraft, Definition.mapParts, validate, Function.comp_def] using
      (checkUnique_text "union variant name").2 hsorted
  case struct =>
    obtain ⟨_, ⟨ps, rfl, rfl, hps⟩, rfl⟩ := h
    have hname : ∀ q ∈ ps, q.1.1 = .text q.2.1 := by
      intro q hq
      obtain ⟨name, hname, heq⟩ := hps q hq
      rw [← heq]
      exact hname
    have hnodup := nodup_names_of_checkUnique (ps.map fun q => (q.1.1, q.2.1))
      (List.forall_mem_map.2 hname)
      (by simpa [validate, Function.comp_def] using hd)
    simpa [TypeDef.toDraft, Definition.mapParts, validate, Function.comp_def] using
      (checkUnique_text "field name").2 hnodup
  case array =>
    obtain ⟨n, hn, rfl⟩ := h
    rw [validate, Value.precedes_of_number? hn rfl] at hd
    exact (congrArg (· >>= _) (Value.precedes_of_number? rfl rfl)).trans hd
  case list | set | map =>
    obtain ⟨min, hmin, max, hmax, rfl⟩ := h
    exact checkSizing_of_number? hmin hmax hd
  case unicode | tuple =>
    subst h
    rfl

end Draft

/-! ## Sound definitions -/

namespace TypeDef

/-- A **sound** definition, in which no name and no tag occurs twice, tags fit into one byte,
something is enumerated or chosen from, and bounds are in order. -/
def Sound : TypeDef → Prop
  | .enumeration members => members ≠ [] ∧ (members.map Prod.fst).Nodup ∧
      (members.map Prod.snd).Nodup ∧ ∀ m ∈ members, m.2 < 256
  | .union variants => variants ≠ [] ∧ (variants.map fun x => x.2.1).Nodup ∧
      (∀ x ∈ variants, x.1 < 256) ∧ variants.Pairwise fun x y => x.1 < y.1
  | .struct fields => (fields.map Prod.fst).Nodup
  | .list _ min max | .set _ min max | .map _ _ min max => min ≤ max ∧ max ≤ 0xffffffff
  | _ => True

/-- Where at least one part has to be, there is one. -/
theorem ne_nil_of_admits {α : Type} {xs : List α} (h : partBounds.admits xs.length = true) :
    xs ≠ [] := by
  rintro rfl
  cases h

/-- A definition in normal form that obeys the rules and has an encoding is sound. -/
theorem sound_of_encode {d : TypeDef} (hnormal : d.Normal) (hvalid : d.toDraft.validate = .ok ())
    {p : Octets} (hp : d.toDraft.encode = .ok p) : d.Sound := by
  have hread : codec.Readable d.toValue := ⟨p, encodes_of_encode_eq_ok hnormal hp⟩
  rw [show codec = .union "TypeDefinition" variants from rfl, readable_union recordVariants] at hread
  simp only [variants, codec, List.mem_cons, List.not_mem_nil, or_false, exists_eq_or_imp,
    exists_eq_left, readable_record, readableFields_cons, readableFields_nil, sizingCodec] at hread
  have hsizing : ∀ min max : Nat, (uint 4).Readable (.ofNat max) →
      Draft.checkSizing (.ofNat min) (.ofNat max) = .ok () → min ≤ max ∧ max ≤ 0xffffffff :=
    fun min max hmax hcheck =>
      ⟨Draft.checkSizing_ofNat.1 hcheck, Nat.le_of_lt_succ (lt_of_readable_uint hmax)⟩
  cases d with
  | enumeration members =>
    simp [toValue, Draft.toValue, toDraft, Definition.mapParts, Definition.kindName] at hread
    obtain ⟨hadmits, hmembers⟩ := readable_list hread
    obtain ⟨_, hnames, htags⟩ := bind_eq_ok.1 hvalid
    rw [List.map_map] at hnames htags
    rw [List.length_map] at hadmits
    refine ⟨ne_nil_of_admits hadmits, ?_, ?_, fun m hm => ?_⟩
    · refine (Draft.checkUnique_text "enum variant name").1 ?_
      rw [List.map_map]
      exact hnames
    · refine (Draft.checkUnique_ofNat "enum tag").1 ?_
      rw [List.map_map]
      exact htags
    · have hmember := List.forall_mem_map.1 hmembers m hm
      simp [readable_record, readableFields_cons, readableFields_nil] at hmember
      exact lt_of_readable_uint hmember.2
  | union variants =>
    simp [toValue, Draft.toValue, toDraft, Definition.mapParts, Definition.kindName] at hread
    obtain ⟨hadmits, hvariants⟩ := readable_mapping (keyed_uint 1) hread
    rw [List.length_map] at hadmits
    refine ⟨ne_nil_of_admits hadmits, ?_, fun x hx => ?_, hnormal⟩
    · refine (Draft.checkUnique_text "union variant name").1 ?_
      simpa [toDraft, Definition.mapParts, Draft.validate, Function.comp_def] using hvalid
    · exact lt_of_readable_uint (List.forall_mem_map.1 hvariants x hx).1
  | struct fields =>
    refine (Draft.checkUnique_text "field name").1 ?_
    simpa [toDraft, Definition.mapParts, Draft.validate, Function.comp_def] using hvalid
  | list item min max | set item min max =>
    simp [toValue, Draft.toValue, toDraft, Definition.mapParts, Definition.kindName,
      Draft.sizingValue] at hread
    exact hsizing min max hread.2.2 hvalid
  | map key value min max =>
    simp [toValue, Draft.toValue, toDraft, Definition.mapParts, Definition.kindName,
      Draft.sizingValue] at hread
    exact hsizing min max hread.2.2.2 hvalid
  | _ => trivial

/-! ## Definitions that are written -/

/-- A definition is written when its record is by the variant of its tag. -/
theorem written_variant {x : Nat × String × Codec} {type : String} {vs : List (String × Value)} (i : Nat)
    (hx : variants[i]? = some x) (htype : recordType? x.2.2 = some type)
    (hwritten : x.2.2.Written (.record type vs)) : codec.Written (.record type vs) :=
  written_union recordVariants (List.mem_of_getElem? hx) htype hwritten

/-- Bounds in range are written. -/
theorem written_sizing {min max : Nat} (hmin : min ≤ max) (hmax : max ≤ 0xffffffff) :
    sizingCodec.Written (Draft.sizingValue (.ofNat min) (.ofNat max)) := by
  have hspan : max < Octets.span 4 := Nat.lt_succ_of_le hmax
  exact (written_record_iff (by decide) rfl).2
    ⟨written_ofNat (Nat.lt_of_le_of_lt hmin hspan), written_ofNat hspan, trivial⟩

end TypeDef

/-! ## Charsets -/

namespace Charset

/-- Characters have different names. -/
theorem nodup_charNames : (printables.map charName).Nodup := by decide +kernel

/-- The definition of the characters of a charset obeys the rules. -/
theorem validate_definition (cs : Charset) : cs.definition.toDraft.validate = .ok () := by
  have hnames : (cs.chars.map charName).Nodup := nodup_charNames.sublist (List.filter_sublist.map _)
  have hcodes : (cs.chars.map Char.toNat).Nodup := nodup_toNat_chars
  refine bind_eq_ok.2 ⟨(), ?_, ?_⟩
  · have h := (Draft.checkUnique_text "enum variant name").2 hnames
    simpa [definition, Function.comp_def] using h
  · have h := (Draft.checkUnique_ofNat "enum tag").2 hcodes
    simpa [definition, Function.comp_def] using h

end Charset

end StrictContract
