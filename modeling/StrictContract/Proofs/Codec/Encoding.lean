import StrictContract.Proofs.Codec.Strings

/-! # Encodings — which bytes are read as which value

`Codec.Encodes c v p` says that `p` is the encoding from which the codec `c` reads the value `v`. The
relation is given shape by shape, without a cursor; `Codec.read_matches` ties it to the reader:
reading succeeds on exactly the inputs that begin with an encoding, and takes this encoding. So every
encoding tells where it ends, and a byte string is the encoding of at most one value. -/

namespace StrictContract

/-- Whether a value has a label, by which errors inside its entry can be placed. -/
def Value.HasLabel (v : Value) : Prop := ∃ label, v.labelled = .ok label

namespace Codec

mutual

/-- `c.Encodes v p`: the bytes `p` are an encoding under `c`, and `v` is the value read from them. -/
def Encodes : Codec → Value → Octets → Prop
  | unit, v, p => v = .null ∧ p = []
  | bool, v, p => ∃ b, v = .bool b ∧ p = [if b then 1 else 0]
  | unicode, v, p => ∃ c : Char, v = .text c.toString ∧ p = Octets.ofNat 4 c.toNat
  | uint size, v, p => v = .int (Octets.toNat p) ∧ p.length = size
  | sint size, v, p => v = .int (Octets.toInt p) ∧ p.length = size
  | byteArray size, v, p => v = .bytes p ∧ p.length = size
  | id kind, v, p => ∃ x : Id kind, v = .id kind x ∧ p = x.octets
  | bytes b _, v, p => ∃ octets, b.admits octets.length = true ∧ v = .bytes octets ∧
      p = b.lengthPrefix octets.length ++ octets
  | ascii first rest b _, v, p => ∃ cs, v = .text (String.ofList cs) ∧
      writeText first rest b cs = .ok p
  | list item b _, v, p => ∃ xs : List (Value × Octets), b.admits xs.length = true ∧
      (∀ x ∈ xs, Encodes item x.1 x.2) ∧ v = .tuple (xs.map Prod.fst) ∧
      p = b.lengthPrefix xs.length ++ (xs.map Prod.snd).flatten
  | set item b form _, v, p => ∃ xs : List (Value × Octets), b.admits xs.length = true ∧
      (∀ x ∈ xs, Encodes item x.1 x.2) ∧ (xs.map Prod.snd).Pairwise (· < ·) ∧
      form.value (xs.map Prod.fst) = .ok v ∧
      p = b.lengthPrefix xs.length ++ (xs.map Prod.snd).flatten
  | map key value b form _, v, p => ∃ es : List ((Value × Octets) × (Value × Octets)),
      b.admits es.length = true ∧
      (∀ e ∈ es, Encodes key e.1.1 e.1.2 ∧ e.1.1.HasLabel ∧ Encodes value e.2.1 e.2.2) ∧
      (es.map (·.1.2)).Pairwise (· < ·) ∧ form.value (es.map fun e => (e.1.1, e.2.1)) = .ok v ∧
      p = b.lengthPrefix es.length ++ (es.map fun e => e.1.2 ++ e.2.2).flatten
  | array item count, v, p => ∃ xs : List (Value × Octets), xs.length = count ∧
      (∀ x ∈ xs, Encodes item x.1 x.2) ∧ v = .tuple (xs.map Prod.fst) ∧
      p = (xs.map Prod.snd).flatten
  | option inner, v, p => (v = .null ∧ p = [0]) ∨ ∃ q, p = 1 :: q ∧ Encodes inner v q
  | tuple items, v, p => ∃ vs, v = .tuple vs ∧ EncodesItems items vs p
  | struct _ fields form wrapped, v, p => ∃ vs, EncodesFields fields vs p ∧
      form.value wrapped vs = .ok v
  | union _ variants, v, p => ∃ (tag : UInt8) (q : Octets), p = tag :: q ∧
      EncodesVariant tag.toNat variants v q
  | enumeration decl, v, p => ∃ (tag : UInt8) (name : String) (t : Nat),
      decl.lookUp (.ofNat tag.toNat) = .ok (some (name, t)) ∧
      v = .member decl name tag.toNat ∧ p = [tag]

/-- The encodings of values for several codecs, one after another. -/
def EncodesItems : List Codec → List Value → Octets → Prop
  | [], vs, p => vs = [] ∧ p = []
  | c :: rest, vs, p => ∃ v ws q t, vs = v :: ws ∧ p = q ++ t ∧ Encodes c v q ∧
      EncodesItems rest ws t

/-- The encodings of the fields of a struct, one after another. -/
def EncodesFields : List (String × Codec) → List (String × Value) → Octets → Prop
  | [], vs, p => vs = [] ∧ p = []
  | (name, c) :: rest, vs, p => ∃ v ws q t, vs = (name, v) :: ws ∧ p = q ++ t ∧ Encodes c v q ∧
      EncodesFields rest ws t

/-- The encodings of the payload of the variant with a tag. -/
def EncodesVariant (tag : Nat) : List (Nat × String × Codec) → Value → Octets → Prop
  | [], _, _ => False
  | (t, name, c) :: rest, v, p =>
    if t = tag then
      ∃ payload, Encodes c payload p ∧ v = if c.discriminated then payload else .tagged name payload
    else EncodesVariant tag rest v p

end

/-! ## Reading -/

open Reader

attribute [local simp] Encodes EncodesItems EncodesFields EncodesVariant
attribute [local simp] read readItems readFields readVariant

/-- A length within bounds is read from the length prefix. -/
theorem matches_length (b : Bounds) {check : Nat → Except Failure Unit}
    (hcheck : ∀ n, check n = .ok () ↔ b.admits n = true) {α : Type} {f : Nat → Reader α}
    {R : Nat → α → Octets → Prop} (hf : ∀ n, (f n).Matches (R n)) :
    (do let n ← Reader.nat b.width; monadLift (check n); f n : Reader α).Matches fun a p =>
      ∃ n q, b.admits n = true ∧ R n a q ∧ p = b.lengthPrefix n ++ q := by
  refine (matches_bind (matches_nat b.width) fun n =>
    matches_bind (matches_lift (check n)) fun _ => hf n).congr fun a p => ?_
  constructor
  · rintro ⟨n, q, t, rfl, ⟨rfl, hq⟩, ⟨⟩, -, s, rfl, ⟨hn, rfl⟩, hR⟩
    refine ⟨Octets.toNat q, s, (hcheck _).1 hn, hR, ?_⟩
    rw [Bounds.lengthPrefix, ← hq, Octets.ofNat_toNat]
    rfl
  · rintro ⟨n, q, hn, hR, rfl⟩
    refine ⟨n, b.lengthPrefix n, q, rfl, ⟨?_, Octets.length_ofNat _ _⟩, (), [], q, rfl,
      ⟨(hcheck n).2 hn, rfl⟩, hR⟩
    exact (Octets.toNat_ofNat (Bounds.lt_of_admits hn)).symm

/-- A number of entries passes its check when it is admitted. -/
theorem checkEntries_eq_ok {b : Bounds} {n : Nat} :
    b.checkEntries n = .ok () ↔ b.admits n = true := by
  unfold Bounds.checkEntries
  split <;> simp_all

/-- A number of bytes passes its check when it is admitted. -/
theorem checkOctets_eq_ok {b : Bounds} {n : Nat} :
    b.checkOctets n = .ok () ↔ b.admits n = true := by
  unfold Bounds.checkOctets
  split <;> simp_all

/-- An entry passes its check when it comes after the one before it. -/
theorem checkAscending_eq_ok {before : Option Octets} {octets : Octets} {label : String} :
    checkAscending before octets label = .ok () ↔ ∀ b ∈ before, b < octets := by
  cases before with
  | none => simp [checkAscending]
  | some b =>
    simp only [checkAscending, Option.mem_some_iff, forall_eq']
    by_cases he : octets = b
    · subst he; simp [List.lt_irrefl]
    · by_cases hl : octets < b
      · simp [he, hl, List.lt_asymm hl]
      · have hle : b ≤ octets := hl
        simp [he, hl, (List.le_iff_lt_or_eq.1 hle).resolve_right (Ne.symm he)]

/-! ### Scalars -/

/-- A truth value is read from the byte zero or one. -/
theorem matches_bool : (read bool).Matches (Encodes bool) := by
  rw [read]
  refine (matches_bind (S := fun n v p => n ≤ 1 ∧ v = .bool (n == 1) ∧ p = []) matches_byte
    fun n => ?_).congr fun v p => ?_
  · by_cases h : n > 1
    · rw [if_pos h]
      exact (matches_refuse _).congr fun v p => by simp; omega
    · rw [if_neg h]
      exact (matches_pure _).congr fun v p => by simp; omega
  · rw [Encodes]
    constructor
    · rintro ⟨n, _, _, rfl, ⟨b, rfl, rfl⟩, hn, rfl, rfl⟩
      refine ⟨b.toNat == 1, rfl, ?_⟩
      have hb : b = 0 ∨ b = 1 := by
        rcases Nat.le_one_iff_eq_zero_or_eq_one.1 hn with h | h
        · exact .inl (UInt8.toNat_inj.1 h)
        · exact .inr (UInt8.toNat_inj.1 h)
      rcases hb with rfl | rfl <;> rfl
    · rintro ⟨b, rfl, rfl⟩
      cases b
      · exact ⟨0, [0], [], rfl, ⟨0, rfl, rfl⟩, by decide, rfl, rfl⟩
      · exact ⟨1, [1], [], rfl, ⟨1, rfl, rfl⟩, by decide, rfl, rfl⟩

/-- The numbers of characters are the Unicode scalar values. -/
theorem isScalar_iff {n : Nat} : isScalar n = true ↔ n.isValidChar := by
  simp only [isScalar, Nat.isValidChar, Bool.or_eq_true, Bool.and_eq_true, decide_eq_true_eq]
  omega

/-- A character is read from the four bytes of its number. -/
theorem matches_unicode : (read unicode).Matches (Encodes unicode) := by
  rw [read]
  refine (matches_bind (S := fun n v p => n.isValidChar ∧ v = .text (Char.ofNat n).toString ∧
    p = []) (matches_nat 4) fun n => ?_).congr fun v p => ?_
  · by_cases h : isScalar n = true
    · rw [if_pos h]
      exact (matches_pure _).congr fun v p => by simp [← isScalar_iff, h]
    · rw [if_neg h]
      exact (matches_refuse _).congr fun v p => by simp [← isScalar_iff, h]
  · rw [Encodes]
    constructor
    · rintro ⟨n, q, _, rfl, ⟨rfl, hq⟩, hn, rfl, rfl⟩
      refine ⟨Char.ofNat (Octets.toNat q), rfl, ?_⟩
      have hc : (Char.ofNat (Octets.toNat q)).toNat = Octets.toNat q := by
        exact toNat_charOfNat hn
      rw [hc, ← hq, Octets.ofNat_toNat, List.append_nil]
    · rintro ⟨c, rfl, rfl⟩
      have hc : c.toNat < Octets.span 4 := by
        have hv : c.toNat.isValidChar := c.valid
        simp only [Octets.span_succ, Octets.span_zero]
        rcases hv with hv | hv <;> omega
      exact ⟨c.toNat, _, [], (List.append_nil _).symm,
        ⟨(Octets.toNat_ofNat hc).symm, Octets.length_ofNat _ _⟩, c.valid, by rw [Char.ofNat_toNat],
        rfl⟩

/-- An unsigned integer is the number that its bytes denote. -/
theorem matches_uint (size : Nat) : (read (uint size)).Matches (Encodes (uint size)) := by
  rw [read]
  refine (matches_map (matches_nat size)).congr fun v p => ?_
  rw [Encodes]
  constructor
  · rintro ⟨n, rfl, rfl, hp⟩; exact ⟨rfl, hp⟩
  · rintro ⟨rfl, hp⟩; exact ⟨_, rfl, rfl, hp⟩

/-- A signed integer is the number that its bytes denote in two's complement. -/
theorem matches_sint (size : Nat) : (read (sint size)).Matches (Encodes (sint size)) := by
  rw [read]
  refine (matches_map (matches_take size)).congr fun v p => ?_
  rw [Encodes]
  constructor
  · rintro ⟨n, rfl, rfl, hp⟩; exact ⟨rfl, hp⟩
  · rintro ⟨rfl, hp⟩; exact ⟨_, rfl, rfl, hp⟩

/-- A byte string of one length is read as it is. -/
theorem matches_byteArray (size : Nat) :
    (read (byteArray size)).Matches (Encodes (byteArray size)) := by
  rw [read]
  refine (matches_map (matches_take size)).congr fun v p => ?_
  rw [Encodes]
  constructor
  · rintro ⟨n, rfl, rfl, hp⟩; exact ⟨rfl, hp⟩
  · rintro ⟨rfl, hp⟩; exact ⟨_, rfl, rfl, hp⟩

/-- An identifier is read from its bytes. -/
theorem matches_id (kind : IdKind) : (read (id kind)).Matches (Encodes (id kind)) := by
  rw [read]
  refine (matches_bind (S := fun octets v p => ∃ h : octets.length = 32,
    v = .id kind ⟨octets, h⟩ ∧ p = []) (matches_take 32) fun octets => ?_).congr fun v p => ?_
  · by_cases h : octets.length = 32
    · rw [dif_pos h]
      exact (matches_pure _).congr fun v p => by simp [h]
    · rw [dif_neg h]
      exact (matches_refuse _).congr fun v p => by simp [h]
  · rw [Encodes]
    constructor
    · rintro ⟨octets, _, _, rfl, ⟨rfl, -⟩, h, rfl, rfl⟩
      exact ⟨⟨_, h⟩, rfl, List.append_nil _⟩
    · rintro ⟨x, rfl, rfl⟩
      exact ⟨x.octets, x.octets, [], (List.append_nil _).symm, ⟨rfl, x.length_octets⟩,
        x.length_octets, rfl, rfl⟩

/-- A byte string is read behind its length prefix. -/
theorem matches_bytes (b : Bounds) (label : Option String) :
    (read (bytes b label)).Matches (Encodes (bytes b label)) := by
  rw [read]
  refine (matches_length b (fun _ => checkOctets_eq_ok) fun n => matches_map (matches_take n)).congr
    fun v p => ?_
  rw [Encodes]
  constructor
  · rintro ⟨_, q, hn, ⟨octets, rfl, rfl, rfl⟩, rfl⟩; exact ⟨_, hn, rfl, rfl⟩
  · rintro ⟨octets, hn, rfl, rfl⟩; exact ⟨_, octets, hn, ⟨octets, rfl, rfl, rfl⟩, rfl⟩

/-! ### Collections -/

/-- The reader of an element of a set, which learns the bytes of the element before. -/
def readElement (item : Codec) (i : Nat) (before : Option Octets) : Reader (Octets × Value) :=
  within (indexSegment i) do
    let (octets, v) ← withOctets (read item)
    checkAscending before octets s!"#{i}"
    return (octets, v)

/-- The reader of a key of a map, which learns the bytes of the key before. -/
def readKey (key : Codec) (i : Nat) (before : Option Octets) : Reader (Octets × Value) :=
  within (indexSegment i) do
    let (octets, k) ← withOctets (read key)
    checkAscending before octets (← k.labelled)
    return (octets, k)

/-- The reader of an entry of a map, which learns the bytes of the key before. -/
def readEntry (key value : Codec) (i : Nat) (before : Option Octets) :
    Reader (Octets × Value × Value) := do
  let (octets, k) ← readKey key i before
  let v ← withinEntry k (read value)
  return (octets, (k, v))

/-- A set is read element by element. -/
theorem read_set (item : Codec) (b : Bounds) (form : SetForm) (label : Option String) :
    read (set item b form label) = (do
      let n ← nat b.width
      b.checkEntries n
      let items ← chained (readElement item) n 0 none []
      form.value items) := by
  rw [read]
  rfl

/-- A map is read entry by entry. -/
theorem read_map (key value : Codec) (b : Bounds) (form : MapForm) (label : Option String) :
    read (map key value b form label) = (do
      let n ← nat b.width
      b.checkEntries n
      let entries ← chained (readEntry key value) n 0 none []
      form.value entries) := by
  rw [read]
  rfl

section

variable {item : Codec} (hitem : (read item).Matches item.Encodes)

include hitem

/-- The items of a sequence are read one after another. -/
theorem matches_items (n : Nat) :
    (Reader.repeated (fun i => within (indexSegment i) (read item)) n 0 []).Matches fun vs p =>
      ∃ xs : List (Value × Octets), xs.length = n ∧ (∀ x ∈ xs, Encodes item x.1 x.2) ∧
        vs = xs.map Prod.fst ∧ p = (xs.map Prod.snd).flatten :=
  (matches_repeated (fun i => matches_within (indexSegment i) hitem) n 0 []).congr fun vs p => by
    simp

/-- A list is read behind the number of its items. -/
theorem matches_list (b : Bounds) (label : Option String) :
    (read (list item b label)).Matches (Encodes (list item b label)) := by
  rw [read]
  refine (matches_length b (fun _ => checkEntries_eq_ok) fun n =>
    matches_map (matches_items hitem n)).congr fun v p => ?_
  rw [Encodes]
  constructor
  · rintro ⟨_, _, hn, ⟨_, rfl, xs, rfl, hxs, rfl, rfl⟩, rfl⟩; exact ⟨xs, hn, hxs, rfl, rfl⟩
  · rintro ⟨xs, hn, hxs, rfl, rfl⟩; exact ⟨_, _, hn, ⟨_, rfl, xs, rfl, hxs, rfl, rfl⟩, rfl⟩

/-- An array is read item by item. -/
theorem matches_array (count : Nat) :
    (read (array item count)).Matches (Encodes (array item count)) := by
  rw [read]
  refine (matches_map (matches_items hitem count)).congr fun v p => ?_
  rw [Encodes]
  constructor
  · rintro ⟨_, rfl, xs, hn, hxs, rfl, rfl⟩; exact ⟨xs, hn, hxs, rfl, rfl⟩
  · rintro ⟨xs, hn, hxs, rfl, rfl⟩; exact ⟨_, rfl, xs, hn, hxs, rfl, rfl⟩

/-- An element of a set is read behind a smaller one. -/
theorem matches_readElement (i : Nat) (before : Option Octets) :
    (readElement item i before).Matches fun x p =>
      (∀ b ∈ before, b < x.1) ∧ x.1 = p ∧ Encodes item x.2 p := by
  refine (matches_within _ (matches_bind (matches_withOctets hitem) fun x =>
    matches_bind (matches_lift _) fun _ => matches_pure _)).congr fun x p => ?_
  constructor
  · rintro ⟨⟨q, v⟩, _, _, rfl, ⟨rfl, hv⟩, ⟨⟩, _, _, rfl, ⟨hlt, rfl⟩, rfl, rfl⟩
    rw [List.append_nil, List.append_nil]
    exact ⟨checkAscending_eq_ok.1 hlt, rfl, hv⟩
  · rintro ⟨hlt, rfl, hv⟩
    exact ⟨x, x.1, [], (List.append_nil _).symm, ⟨rfl, hv⟩, (), [], [], rfl,
      ⟨checkAscending_eq_ok.2 hlt, rfl⟩, rfl, rfl⟩

/-- A set is read from ascending elements. -/
theorem matches_set (b : Bounds) (form : SetForm) (label : Option String) :
    (read (set item b form label)).Matches (Encodes (set item b form label)) := by
  rw [read_set]
  refine (matches_length b (fun _ => checkEntries_eq_ok) fun n =>
    matches_bind (matches_chained (R := fun k v p => k = p ∧ Encodes item v p)
      (matches_readElement hitem) n 0 none []) fun items => matches_lift (form.value items)).congr
    fun v p => ?_
  rw [Encodes]
  constructor
  · rintro ⟨_, _, hn, ⟨_, _, _, rfl, ⟨xs, rfl, hxs, hlt, rfl, rfl⟩, hv, rfl⟩, rfl⟩
    have hkeys : xs.map Prod.fst = xs.map (·.2.2) := List.map_congr_left fun x hx => (hxs x hx).1
    refine ⟨xs.map Prod.snd, by rwa [List.length_map], ?_, ?_, ?_, ?_⟩
    · intro y hy
      obtain ⟨x, hx, rfl⟩ := List.mem_map.1 hy
      exact (hxs x hx).2
    · rw [List.map_map]
      change (xs.map (·.2.2)).Pairwise _
      rwa [← hkeys]
    · simpa [Function.comp_def] using hv
    · simp [Function.comp_def]
  · rintro ⟨xs, hn, hxs, hlt, hv, rfl⟩
    refine ⟨_, _, hn, ⟨xs.map Prod.fst, _, [], (List.append_nil _).symm,
      ⟨xs.map fun x => (x.2, x), List.length_map _, ?_, ?_, ?_, ?_⟩, hv, rfl⟩, rfl⟩
    · intro y hy
      obtain ⟨x, hx, rfl⟩ := List.mem_map.1 hy
      exact ⟨rfl, hxs x hx⟩
    · simpa [Follows, Function.comp_def] using hlt
    · simp [Function.comp_def]
    · simp [Function.comp_def]

end

section

variable {key value : Codec} (hkey : (read key).Matches key.Encodes)
  (hvalue : (read value).Matches value.Encodes)

include hkey

/-- A key of a map is read behind a smaller one. -/
theorem matches_readKey (i : Nat) (before : Option Octets) :
    (readKey key i before).Matches fun x p =>
      (∀ b ∈ before, b < x.1) ∧ x.1 = p ∧ Encodes key x.2 p ∧ x.2.HasLabel := by
  refine (matches_within _ (matches_bind (matches_withOctets hkey) fun x =>
    matches_bind (matches_lift _) fun _ => matches_bind (matches_lift _) fun _ =>
      matches_pure _)).congr fun x p => ?_
  constructor
  · rintro ⟨⟨q, k⟩, _, _, rfl, ⟨rfl, hk⟩, label, _, _, rfl, ⟨hlabel, rfl⟩, ⟨⟩, _, _, rfl,
      ⟨hlt, rfl⟩, rfl, rfl⟩
    rw [List.nil_append, List.append_nil, List.append_nil]
    exact ⟨checkAscending_eq_ok.1 hlt, rfl, hk, label, hlabel⟩
  · rintro ⟨hlt, rfl, hk, label, hlabel⟩
    exact ⟨x, x.1, [], (List.append_nil _).symm, ⟨rfl, hk⟩, label, [], [], rfl, ⟨hlabel, rfl⟩, (),
      [], [], rfl, ⟨checkAscending_eq_ok.2 hlt, rfl⟩, rfl, rfl⟩

include hvalue

/-- An entry of a map is read behind one with a smaller key. -/
theorem matches_readEntry (i : Nat) (before : Option Octets) :
    (readEntry key value i before).Matches fun x p =>
      (∀ b ∈ before, b < x.1) ∧ ∃ q, p = x.1 ++ q ∧ Encodes key x.2.1 x.1 ∧ x.2.1.HasLabel ∧
        Encodes value x.2.2 q := by
  refine (matches_bind (matches_readKey hkey i before) fun x =>
    matches_map (matches_withinEntry _ hvalue)).congr fun x p => ?_
  constructor
  · rintro ⟨⟨_, k⟩, q, t, rfl, ⟨hlt, rfl, hk, hlabel⟩, v, rfl, hv⟩
    exact ⟨hlt, t, rfl, hk, hlabel, hv⟩
  · rintro ⟨hlt, q, rfl, hk, hlabel, hv⟩
    exact ⟨(x.1, x.2.1), x.1, q, rfl, ⟨hlt, rfl, hk, hlabel⟩, x.2.2, rfl, hv⟩

/-- A map is read from entries with ascending keys. -/
theorem matches_map_entries (b : Bounds) (form : MapForm) (label : Option String) :
    (read (map key value b form label)).Matches (Encodes (map key value b form label)) := by
  rw [read_map]
  refine (matches_length b (fun _ => checkEntries_eq_ok) fun n =>
    matches_bind (matches_chained (R := fun k e p => ∃ q, p = k ++ q ∧ Encodes key e.1 k ∧
      e.1.HasLabel ∧ Encodes value e.2 q) (matches_readEntry hkey hvalue) n 0 none []) fun entries =>
        matches_lift (form.value entries)).congr fun v p => ?_
  rw [Encodes]
  constructor
  · rintro ⟨_, _, hn, ⟨_, _, _, rfl, ⟨xs, rfl, hxs, hlt, rfl, rfl⟩, hv, rfl⟩, rfl⟩
    obtain ⟨es, rfl, hes⟩ := exists_eq_map
      (f := fun e : (Value × Octets) × (Value × Octets) =>
        (e.1.2, (e.1.1, e.2.1), e.1.2 ++ e.2.2))
      (P := fun e => Encodes key e.1.1 e.1.2 ∧ e.1.1.HasLabel ∧ Encodes value e.2.1 e.2.2)
      fun x hx => by
        obtain ⟨q, hq, hk, hlabel, hv⟩ := hxs x hx
        exact ⟨((x.2.1.1, x.1), (x.2.1.2, q)), by simp only [← hq], hk, hlabel, hv⟩
    refine ⟨es, by rwa [List.length_map] at hn, hes, ?_, ?_, ?_⟩
    · simpa [Follows, Function.comp_def] using hlt
    · simpa [Function.comp_def] using hv
    · simp [Function.comp_def]
  · rintro ⟨es, hn, hes, hlt, hv, rfl⟩
    refine ⟨_, _, hn, ⟨es.map fun e => (e.1.1, e.2.1), _, [], (List.append_nil _).symm,
      ⟨es.map fun e => (e.1.2, (e.1.1, e.2.1), e.1.2 ++ e.2.2), List.length_map _, ?_, ?_, ?_, ?_⟩,
      hv, rfl⟩, rfl⟩
    · intro y hy
      obtain ⟨e, he, rfl⟩ := List.mem_map.1 hy
      obtain ⟨hk, hlabel, hv⟩ := hes e he
      exact ⟨e.2.2, rfl, hk, hlabel, hv⟩
    · simpa [Follows, Function.comp_def] using hlt
    · simp [Function.comp_def]
    · simp [Function.comp_def]

end


/-! ### Composites -/

/-- An optional value is read behind its presence byte. -/
theorem matches_option {inner : Codec} (hinner : (read inner).Matches inner.Encodes) :
    (read (option inner)).Matches (Encodes (option inner)) := by
  rw [read]
  refine (matches_bind (S := fun n v p => (n = 0 ∧ v = .null ∧ p = []) ∨ (n = 1 ∧ Encodes inner v p))
    matches_byte fun n => ?_).congr fun v p => ?_
  · by_cases h₀ : n = 0
    · rw [if_pos h₀]
      exact (matches_pure _).congr fun v p => by simp [h₀]
    · rw [if_neg h₀]
      by_cases h₁ : n = 1
      · rw [if_pos h₁]
        exact hinner.congr fun v p => by simp [h₁]
      · rw [if_neg h₁]
        exact (matches_refuse _).congr fun v p => by simp [h₀, h₁]
  · rw [Encodes]
    constructor
    · rintro ⟨_, _, t, rfl, ⟨b, rfl, rfl⟩, ⟨hb, rfl, rfl⟩ | ⟨hb, hv⟩⟩
      · exact .inl ⟨rfl, by rw [show b = 0 from UInt8.toNat_inj.1 hb]; rfl⟩
      · exact .inr ⟨t, by rw [show b = 1 from UInt8.toNat_inj.1 hb]; rfl, hv⟩
    · rintro (⟨rfl, rfl⟩ | ⟨q, rfl, hv⟩)
      · exact ⟨0, [0], [], rfl, ⟨0, rfl, rfl⟩, .inl ⟨rfl, rfl, rfl⟩⟩
      · exact ⟨1, [1], q, rfl, ⟨1, rfl, rfl⟩, .inr ⟨rfl, hv⟩⟩

/-- A member is read from its tag. -/
theorem matches_enumeration (decl : Enumeration) :
    (read (enumeration decl)).Matches (Encodes (enumeration decl)) := by
  rw [read]
  refine (matches_bind (S := fun tag v p => ∃ name t,
    decl.lookUp (.ofNat tag) = .ok (some (name, t)) ∧ v = .member decl name tag ∧ p = [])
    matches_byte fun tag => ?_).congr fun v p => ?_
  · refine (matches_bind (S := fun found v p => ∃ name t, found = some (name, t) ∧
      v = .member decl name tag ∧ p = []) (matches_lift (decl.lookUp (.ofNat tag)))
      fun found => ?_).congr fun v p => ?_
    · match found with
      | some (name, t) => exact (matches_pure _).congr fun v p => by simp
      | none => exact (matches_refuse _).congr fun v p => by simp
    · constructor
      · rintro ⟨_, _, _, rfl, ⟨hfound, rfl⟩, name, t, rfl, rfl, rfl⟩
        exact ⟨name, t, hfound, rfl, rfl⟩
      · rintro ⟨name, t, hfound, rfl, rfl⟩
        exact ⟨_, [], [], rfl, ⟨hfound, rfl⟩, name, t, rfl, rfl, rfl⟩
  · rw [Encodes]
    constructor
    · rintro ⟨_, _, _, rfl, ⟨tag, rfl, rfl⟩, name, t, hfound, rfl, rfl⟩
      exact ⟨tag, name, t, hfound, rfl, rfl⟩
    · rintro ⟨tag, name, t, hfound, rfl, rfl⟩
      exact ⟨_, [tag], [], rfl, ⟨tag, rfl, rfl⟩, name, t, hfound, rfl, rfl⟩

mutual

/-- A codec reads exactly its encodings. -/
theorem read_matches : ∀ c : Codec, (read c).Matches c.Encodes
  | unit => by
    rw [read]
    exact (matches_pure Value.null).congr fun v p => by rw [Encodes]
  | bool => matches_bool
  | unicode => matches_unicode
  | uint size => matches_uint size
  | sint size => matches_sint size
  | byteArray size => matches_byteArray size
  | id kind => matches_id kind
  | bytes b label => matches_bytes b label
  | ascii first rest b label => by
    rw [read]
    exact (matches_text first rest b).congr fun v p => by rw [Encodes]
  | list item b label => matches_list (read_matches item) b label
  | set item b form label => matches_set (read_matches item) b form label
  | map key value b form label =>
    matches_map_entries (read_matches key) (read_matches value) b form label
  | array item count => matches_array (read_matches item) count
  | option inner => matches_option (read_matches inner)
  | tuple items => by
    rw [read]
    refine (matches_map (readItems_matches items 0)).congr fun v p => ?_
    rw [Encodes]
  | struct name fields form wrapped => by
    rw [read]
    refine (matches_bind (readFields_matches fields) fun vs =>
      matches_lift (form.value wrapped vs)).congr fun v p => ?_
    rw [Encodes]
    constructor
    · rintro ⟨vs, q, _, rfl, hvs, hv, rfl⟩; exact ⟨vs, by rwa [List.append_nil], hv⟩
    · rintro ⟨vs, hvs, hv⟩; exact ⟨vs, p, [], (List.append_nil p).symm, hvs, hv, rfl⟩
  | union name variants => by
    rw [read]
    refine (matches_bind matches_byte fun tag => readVariant_matches name tag variants).congr
      fun v p => ?_
    rw [Encodes]
    constructor
    · rintro ⟨_, _, q, rfl, ⟨tag, rfl, rfl⟩, hv⟩; exact ⟨tag, q, rfl, hv⟩
    · rintro ⟨tag, q, rfl, hv⟩; exact ⟨_, [tag], q, rfl, ⟨tag, rfl, rfl⟩, hv⟩
  | enumeration decl => matches_enumeration decl

/-- Items are read one after another, each under its codec. -/
theorem readItems_matches : ∀ (items : List Codec) (i : Nat),
    (readItems items i).Matches (EncodesItems items)
  | [], i => by
    rw [readItems]
    exact (matches_pure _).congr fun vs p => by rw [EncodesItems]
  | c :: rest, i => by
    rw [readItems]
    refine (matches_bind (matches_within _ (read_matches c)) fun v =>
      matches_map (readItems_matches rest (i + 1))).congr fun vs p => ?_
    rw [EncodesItems]
    constructor
    · rintro ⟨v, q, t, rfl, hv, ws, rfl, hws⟩; exact ⟨v, ws, q, t, rfl, rfl, hv, hws⟩
    · rintro ⟨v, ws, q, t, rfl, rfl, hv, hws⟩; exact ⟨v, q, t, rfl, hv, ws, rfl, hws⟩

/-- Fields are read one after another, each under its codec. -/
theorem readFields_matches : ∀ fields : List (String × Codec),
    (readFields fields).Matches (EncodesFields fields)
  | [] => by
    rw [readFields]
    exact (matches_pure _).congr fun vs p => by rw [EncodesFields]
  | (name, c) :: rest => by
    rw [readFields]
    refine (matches_bind (matches_within _ (read_matches c)) fun v =>
      matches_map (readFields_matches rest)).congr fun vs p => ?_
    rw [EncodesFields]
    constructor
    · rintro ⟨v, q, t, rfl, hv, ws, rfl, hws⟩; exact ⟨v, ws, q, t, rfl, rfl, hv, hws⟩
    · rintro ⟨v, ws, q, t, rfl, rfl, hv, hws⟩; exact ⟨v, q, t, rfl, hv, ws, rfl, hws⟩

/-- The payload of a variant is read under the codec that the tag stands for. -/
theorem readVariant_matches (union : String) (tag : Nat) :
    ∀ variants : List (Nat × String × Codec),
      (readVariant union tag variants).Matches (EncodesVariant tag variants)
  | [] => by
    rw [readVariant]
    exact (matches_refuse _).congr fun v p => by rw [EncodesVariant]
  | (t, name, c) :: rest => by
    rw [readVariant]
    by_cases h : t = tag
    · rw [if_pos h]
      refine (matches_map (matches_within _ (read_matches c))).congr fun v p => ?_
      rw [EncodesVariant, if_pos h]
      constructor
      · rintro ⟨payload, rfl, hp⟩; exact ⟨payload, hp, rfl⟩
      · rintro ⟨payload, hp, rfl⟩; exact ⟨payload, rfl, hp⟩
    · rw [if_neg h]
      exact (readVariant_matches union tag rest).congr fun v p => by rw [EncodesVariant, if_neg h]

end

/-- A byte string is decoded when it is an encoding. -/
theorem decode_eq_ok {c : Codec} {v : Value} {p : Octets} :
    c.decode p = .ok v ↔ c.Encodes v p :=
  (read_matches c).exactly_eq_ok

/-- An encoding tells where it ends, and what it encodes. -/
theorem Encodes.unique {c : Codec} {v w : Value} {p q s t : Octets} (hv : c.Encodes v p)
    (hw : c.Encodes w q) (h : p ++ s = q ++ t) : v = w ∧ p = q :=
  (read_matches c).unique hv hw h

end Codec

end StrictContract
