import StrictContract.Proofs.Codec.Writing
import StrictContract.Proofs.Table
import StrictContract.Proofs.Value.Keys
import StrictContract.Proofs.Value.Member

/-! # Reencoding — writing what was read

A codec **reencodes** if every value that it reads is written as the bytes it was read from. Codecs
made of parts that reencode do so themselves, as long as nothing of what was read gets lost: elements
and keys from different encodings must not coincide, a present value must not be null, and a variant
must not take the values of another one. -/

namespace StrictContract

namespace Octets

/-- The integers of a width reach from minus to plus half its span. -/
theorem toInt_bounds (bs : Octets) :
    -(span bs.length : Int) ≤ 2 * toInt bs ∧ 2 * toInt bs < span bs.length := by
  have hlt := toNat_lt bs
  simp only [toInt]
  split <;> omega

/-- Every byte string is the layout of the integer it denotes in two's complement. -/
theorem ofInt_toInt (bs : Octets) : ofInt bs.length (toInt bs) = bs := by
  have hlt := toNat_lt bs
  have hmod : (toInt bs % (span bs.length : Int)).toNat = toNat bs := by
    have hself : ((toNat bs : Int) % span bs.length).toNat = toNat bs := by
      rw [Int.emod_eq_of_lt (by omega) (by omega), Int.toNat_natCast]
    simp only [toInt]
    split
    · exact hself
    · rw [Int.sub_emod_right, hself]
  rw [ofInt, hmod, ofNat_toNat]

end Octets

namespace Codec

/-- A codec **reencodes** when what it reads is written as the bytes it was read from. -/
def Reencodes (c : Codec) : Prop := ∀ ⦃v p⦄, c.Encodes v p → c.write v = .ok p

/-- Encodings **apart**: values read from different encodings are different keys. -/
def Apart (c : Codec) : Prop :=
  ∀ ⦃v w p q⦄, c.Encodes v p → c.Encodes w q → v.same w = true → p = q

attribute [local simp] Encodes EncodesItems EncodesFields EncodesVariant
attribute [local simp] write writeItems writeFields writeBare writeNamed writeAccepted

/-! ## Scalars -/

theorem reencodes_unit : Reencodes unit := by
  rintro v p ⟨rfl, rfl⟩
  rfl

theorem reencodes_bool : Reencodes bool := by
  rintro v p ⟨b, rfl, rfl⟩
  rfl

theorem reencodes_unicode : Reencodes unicode := by
  rintro v p ⟨c, rfl, rfl⟩
  rw [write]
  simp [Value.codePoints?, CodePoint.ofString, CodePoint.toNat]

theorem reencodes_uint (size : Nat) : Reencodes (uint size) := by
  rintro v p ⟨rfl, rfl⟩
  have hlt := Octets.toNat_lt p
  have hfits : (0 : Int) ≤ Octets.toNat p ∧ (Octets.toNat p : Int) < Octets.span p.length := by
    omega
  rw [write, writeUInt]
  simp only [Value.integer, bind, Except.bind]
  rw [if_pos hfits, Int.toNat_natCast, Octets.ofNat_toNat]
  rfl

theorem reencodes_sint (size : Nat) : Reencodes (sint size) := by
  rintro v p ⟨rfl, rfl⟩
  rw [write, writeSInt]
  simp only [Value.integer, bind, Except.bind, Octets.toInt_bounds p, and_self, decide_true,
    if_true, Octets.ofInt_toInt]
  rfl

theorem reencodes_byteArray (size : Nat) : Reencodes (byteArray size) := by
  rintro v p ⟨rfl, rfl⟩
  rw [write, writeArray]
  simp [Value.octets, Value.octets?, bind, Except.bind, pure, Except.pure]

theorem reencodes_id (kind : IdKind) : Reencodes (id kind) := by
  rintro v p ⟨x, rfl, rfl⟩
  rw [write, writeArray]
  simp [Value.octets, Value.octets?, bind, Except.bind, pure, Except.pure, x.length_octets]

theorem reencodes_bytes (b : Bounds) (label : Option String) : Reencodes (bytes b label) := by
  rintro v p ⟨octets, hn, rfl, rfl⟩
  rw [write, bind_eq_ok]
  exact ⟨octets, rfl, bind_eq_ok.2 ⟨(), checkOctets_eq_ok.2 hn, rfl⟩⟩

theorem reencodes_ascii (first rest : Charset) (b : Bounds) (label : Option String) :
    Reencodes (ascii first rest b label) := by
  rintro v p ⟨cs, rfl, hp⟩
  rw [write]
  simpa using hp

/-- Members are numbers again, unless their enumeration keeps them from being numbers. -/
theorem reencodes_enumeration {decl : Enumeration} (hint : decl.lacks "__int__" = false) :
    Reencodes (enumeration decl) := by
  rintro v p ⟨tag, name, t, hfound, rfl, rfl⟩
  -- the member and its tag stand for the same number, and a member is always comparable to itself
  have hlookup : decl.lookUp (.member decl name tag.toNat) = .ok (some (name, t)) ∧
      (t : Int) = tag.toNat := by
    obtain ⟨hfind, -⟩ := Enumeration.lookUp_eq_some.1 hfound
    exact ⟨Enumeration.lookUp_eq_some.2 ⟨hfind, fun _ => ⟨_, _, rfl⟩⟩,
      (Enumeration.find?_eq_some hfind).2⟩
  rw [write, bind_eq_ok]
  refine ⟨_, hlookup.1, ?_⟩
  simp only [hint]
  have ht : t = tag.toNat := Int.ofNat_inj.1 hlookup.2
  rw [ht]
  simp [pure, Except.pure]

/-! ## Collections -/

theorem reencodes_list {item : Codec} (hitem : Reencodes item) (b : Bounds)
    (label : Option String) : Reencodes (list item b label) := by
  rintro v p ⟨xs, hn, hxs, rfl, rfl⟩
  exact write_list_eq_ok.2 ⟨xs, rfl, hn, fun x hx => hitem (hxs x hx), rfl⟩

theorem reencodes_array {item : Codec} (hitem : Reencodes item) (count : Nat) :
    Reencodes (array item count) := by
  rintro v p ⟨xs, rfl, hxs, rfl, rfl⟩
  rw [write]
  refine bind_eq_ok.2 ⟨_, rfl, unless_eq_ok.2 ⟨by simp, bind_eq_ok.2 ⟨xs.map Prod.snd, ?_, rfl⟩⟩⟩
  exact (mapM_zipIdx_eq_ok 0).2 (mapM_eq_ok.2 ⟨xs, rfl, rfl, fun x hx => hitem (hxs x hx)⟩)

/-- Elements read from ascending encodings are different keys when encodings are apart. -/
theorem Apart.pairwise {item : Codec} (hapart : Apart item) {xs : List (Value × Octets)}
    (hxs : ∀ x ∈ xs, item.Encodes x.1 x.2) (hlt : (xs.map Prod.snd).Pairwise (· < ·)) :
    xs.Pairwise fun x y => Value.same x.1 y.1 = false ∧ Value.same y.1 x.1 = false := by
  refine (List.pairwise_map.1 hlt).imp_of_mem fun {x y} hx hy hxy => ⟨?_, ?_⟩
  · refine Bool.eq_false_iff.2 fun hsame => ?_
    have heq := hapart (hxs x hx) (hxs y hy) hsame
    exact List.lt_irrefl _ (heq ▸ hxy)
  · refine Bool.eq_false_iff.2 fun hsame => ?_
    have heq := hapart (hxs y hy) (hxs x hx) hsame
    exact List.lt_irrefl _ (heq ▸ hxy)

/-- No element is lost when a set is made of elements that are apart. -/
theorem Apart.setValue {item : Codec} (hapart : Apart item) {xs : List (Value × Octets)}
    (hxs : ∀ x ∈ xs, item.Encodes x.1 x.2) (hlt : (xs.map Prod.snd).Pairwise (· < ·)) :
    Value.distinct (xs.map Prod.fst) = xs.map Prod.fst :=
  Value.distinct_eq_self (List.pairwise_map.2 ((hapart.pairwise hxs hlt).imp And.right))

/-- No entry is lost when a mapping is made of entries with keys that are apart. -/
theorem Apart.mapValue {key : Codec} (hapart : Apart key)
    {es : List ((Value × Octets) × (Value × Octets))} (hes : ∀ e ∈ es, key.Encodes e.1.1 e.1.2)
    (hlt : (es.map (·.1.2)).Pairwise (· < ·)) :
    Value.unique (es.map fun e => (e.1.1, e.2.1)) = es.map fun e => (e.1.1, e.2.1) := by
  have hkeyed : ∀ x ∈ es.map Prod.fst, key.Encodes x.1 x.2 := List.forall_mem_map.2 hes
  have hpairwise := hapart.pairwise hkeyed (by rwa [List.map_map])
  exact Value.unique_eq_self
    (List.pairwise_map.2 ((List.pairwise_map.1 hpairwise).imp And.left))

theorem reencodes_set {item : Codec} (hitem : Reencodes item) {b : Bounds} {form : SetForm}
    {label : Option String} (hapart : form = .members → Apart item) :
    Reencodes (set item b form label) := by
  rintro v p ⟨xs, hn, hxs, hlt, hv, rfl⟩
  have hitems : v.items? = some (xs.map Prod.fst) := by
    cases form with
    | sequence =>
      cases hv
      rfl
    | members =>
      rw [SetForm.value] at hv
      split at hv
      · cases hv
        rw [(hapart rfl).setValue hxs hlt]
        rfl
      · cases hv
  exact write_set_eq_ok.2 ⟨xs, xs, hitems, fun x hx => hitem (hxs x hx), .refl xs, hlt, hn, rfl⟩

theorem reencodes_map {key value : Codec} (hkey : Reencodes key) (hvalue : Reencodes value)
    {b : Bounds} {form : MapForm} {label : Option String} (hapart : form = .mapping → Apart key) :
    Reencodes (map key value b form label) := by
  rintro v p ⟨es, hn, hes, hlt, hv, rfl⟩
  have hitems : v.mapItems form = .ok (es.map fun e => .tuple [e.1.1, e.2.1]) := by
    cases form with
    | pairs =>
      cases hv
      simp [Value.mapItems]
    | mapping =>
      rw [MapForm.value] at hv
      split at hv
      · cases hv
        rw [(hapart rfl).mapValue (fun e he => (hes e he).1) hlt]
        simp [Value.mapItems]
      · cases hv
  refine write_map_eq_ok.2 ⟨es.map fun e => (.tuple [e.1.1, e.2.1], e), es, ?_, ?_, ?_, hlt, hn, rfl⟩
  · rw [hitems, List.map_map]
    rfl
  · refine List.forall_mem_map.2 fun e he => ⟨Value.unpair_tuple _ _, ?_, ?_⟩
    · exact hkey (hes e he).1
    · exact hvalue (hes e he).2.2
  · rw [List.map_map]
    exact .of_eq (List.map_id' es).symm

/-! ## Composites -/

theorem reencodes_option {inner : Codec} (hinner : Reencodes inner)
    (hnull : ∀ p, ¬ inner.Encodes .null p) : Reencodes (option inner) := by
  rintro v p (⟨rfl, rfl⟩ | ⟨q, rfl, hv⟩)
  · rfl
  · -- null would be written as an absent value
    have hne : v ≠ .null := by rintro rfl; exact hnull q hv
    rw [write]
    · exact bind_eq_ok.2 ⟨q, hinner hv, rfl⟩
    · exact hne

/-- Items are read one for each codec. -/
theorem EncodesItems.length_eq {items : List Codec} {vs : List Value} {p : Octets}
    (h : EncodesItems items vs p) : vs.length = items.length := by
  induction items generalizing vs p with
  | nil =>
    obtain ⟨rfl, -⟩ := h
    rfl
  | cons c items ih =>
    obtain ⟨v, ws, q, t, rfl, rfl, -, hws⟩ := h
    rw [List.length_cons, List.length_cons, ih hws]

/-- Items read are written under the codecs they were read with. -/
theorem EncodesItems.writeItems_eq_ok {items : List Codec} {vs : List Value} {p : Octets}
    (h : EncodesItems items vs p) (hitems : ∀ c ∈ items, Reencodes c) (i : Nat) :
    writeItems items i vs = .ok p := by
  induction items generalizing vs p i with
  | nil =>
    obtain ⟨rfl, rfl⟩ := h
    rw [writeItems]
    nofun
  | cons c items ih =>
    obtain ⟨v, ws, q, t, rfl, rfl, hv, hws⟩ := h
    rw [List.forall_mem_cons] at hitems
    rw [writeItems, bind_eq_ok]
    exact ⟨q, inside_eq_ok.2 (hitems.1 hv), bind_eq_ok.2 ⟨t, ih hws hitems.2 (i + 1), rfl⟩⟩

theorem reencodes_tuple {items : List Codec} (hitems : ∀ c ∈ items, Reencodes c) :
    Reencodes (tuple items) := by
  rintro v p ⟨vs, rfl, hvs⟩
  rw [write]
  refine bind_eq_ok.2 ⟨vs, rfl, unless_eq_ok.2 ⟨?_, hvs.writeItems_eq_ok hitems 0⟩⟩
  exact not_not_intro hvs.length_eq

/-- The fields read are those of the struct. -/
theorem EncodesFields.names {fields : List (String × Codec)} {vs : List (String × Value)}
    {p : Octets} (h : EncodesFields fields vs p) : vs.map Prod.fst = fields.map Prod.fst := by
  induction fields generalizing vs p with
  | nil =>
    obtain ⟨rfl, -⟩ := h
    rfl
  | cons f fields ih =>
    obtain ⟨v, ws, q, t, rfl, rfl, -, hws⟩ := h
    rw [List.map_cons, List.map_cons, ih hws]

/-- Fields read are written under the codecs they were read with. -/
theorem EncodesFields.writeFields_eq_ok {fields : List (String × Codec)}
    {vs : List (String × Value)} {p : Octets} (h : EncodesFields fields vs p)
    (hfields : ∀ f ∈ fields, Reencodes f.2) {v : Value}
    (hv : ∀ x ∈ vs, v.field x.1 = .ok x.2) : writeFields fields v = .ok p := by
  induction fields generalizing vs p with
  | nil =>
    obtain ⟨-, rfl⟩ := h
    rfl
  | cons f fields ih =>
    obtain ⟨x, ws, q, t, rfl, rfl, hx, hws⟩ := h
    rw [List.forall_mem_cons] at hfields hv
    rw [writeFields, bind_eq_ok]
    refine ⟨q, inside_eq_ok.2 (bind_eq_ok.2 ⟨x, hv.1, hfields.1 hx⟩), ?_⟩
    exact bind_eq_ok.2 ⟨t, ih hws hfields.2 hv.2, rfl⟩

/-- A record has the fields that it is made of. -/
theorem field_record {type : String} {fields : List (String × Value)}
    (hnames : (fields.map Prod.fst).Nodup) {x : String × Value} (hx : x ∈ fields) :
    (Value.record type fields).field x.1 = .ok x.2 := by
  have hlookup : fields.lookup x.1 = some x.2 := (lookup_eq_some_iff_mem hnames).2 hx
  simp [Value.field, Value.feature?, Value.part?, hlookup]

/-- A record of a declared type has the fields that it is made of. -/
theorem field_declared {type : RecordType} {fields : List (String × Value)}
    (hnames : (fields.map Prod.fst).Nodup) {x : String × Value} (hx : x ∈ fields) :
    (Value.declared type fields).field x.1 = .ok x.2 := by
  have hlookup : fields.lookup x.1 = some x.2 := (lookup_eq_some_iff_mem hnames).2 hx
  simp [Value.field, Value.feature?, Value.part?, hlookup]

/-- Texts are looked up as names are. -/
theorem lookup?_text (fields : List (String × Value)) (name : String) :
    Value.lookup? (.text name) (fields.map fun (name, v) => (Value.text name, v)) =
      fields.lookup name := by
  induction fields with
  | nil => rfl
  | cons f fields ih =>
    rw [List.lookup_cons, List.map_cons, Value.lookup?, List.find?_cons]
    simp only [Value.same, Bool.beq_comm (a := f.1)]
    cases h : name == f.1 with
    | true => rfl
    | false => exact ih

/-- A mapping of fields has the fields that it is made of. -/
theorem field_ofFields {fields : List (String × Value)} (hnames : (fields.map Prod.fst).Nodup)
    {x : String × Value} (hx : x ∈ fields) : (Value.ofFields fields).field x.1 = .ok x.2 := by
  have hlookup := lookup?_text fields x.1
  rw [(lookup_eq_some_iff_mem hnames).2 hx] at hlookup
  simp [Value.field, Value.ofFields, Value.entry?, hlookup]

/-- A declared record is made of the fields that were read. -/
theorem record_eq_ok {type : RecordType} {fields : List (String × Value)} {v : Value}
    (h : type.record fields = .ok v) : v = .declared type fields := by
  unfold RecordType.record at h
  split at h
  · cases h
  · split at h
    · cases h
    · cases h
      rfl

/-- Structs write the fields that they read. A wrapped struct without a type for its values has just
one field, which stands for the struct. -/
theorem reencodes_struct {name : String} {fields : List (String × Codec)} {form : StructForm}
    {wrapped : Bool} (hform : form ≠ .typeSystem) (hwrapped : wrapped = true → fields.length = 1)
    (hnames : (fields.map Prod.fst).Nodup) (hfields : ∀ f ∈ fields, Reencodes f.2) :
    Reencodes (struct name fields form wrapped) := by
  rintro v p ⟨vs, hvs, hv⟩
  have hvnames : (vs.map Prod.fst).Nodup := hvs.names ▸ hnames
  rw [write]
  cases form with
  | typeSystem => exact absurd rfl hform
  | record type =>
    cases hv
    simp only [accepts, BEq.rfl, Bool.not_true, Bool.and_false, Bool.false_eq_true, if_false]
    exact hvs.writeFields_eq_ok hfields fun x hx => field_record hvnames hx
  | declared type =>
    obtain rfl := record_eq_ok hv
    simp only [accepts, BEq.rfl, Bool.not_true, Bool.and_false, Bool.false_eq_true, if_false]
    exact hvs.writeFields_eq_ok hfields fun x hx => field_declared hvnames hx
  | mapping =>
    cases wrapped with
    | false =>
      cases hv
      exact hvs.writeFields_eq_ok hfields fun x hx => field_ofFields hvnames hx
    | true =>
      obtain ⟨⟨field, c⟩, rfl⟩ := List.length_eq_one_iff.1 (hwrapped rfl)
      obtain ⟨x, ws, q, t, rfl, rfl, hx, rfl, rfl⟩ := hvs
      cases hv
      simp only [accepts, Bool.not_false, Bool.and_self, if_true, List.append_nil]
      exact inside_eq_ok.2 (hfields _ (List.mem_cons_self ..) hx)

/-! ## Unions -/

/-- A struct of a type system reads records of type systems. -/
theorem exists_toValue_of_value {wrapped : Bool} {vs : List (String × Value)} {v : Value}
    (h : StructForm.typeSystem.value wrapped vs = .ok v) : ∃ ts : TypeSystem, v = ts.toValue := by
  cases vs with
  | nil => cases h
  | cons x vs =>
    cases vs with
    | cons => cases h
    | nil =>
      obtain ⟨ts, -, hv⟩ := bind_eq_ok.1 h
      exact ⟨ts, (pure_eq_ok.1 hv).symm⟩

/-- A value that tells on its own what it is of is accepted by the codec it was read with. -/
theorem Encodes.accepts {c : Codec} (hc : c.discriminated = true) {v : Value} {p : Octets}
    (h : c.Encodes v p) : c.accepts v = true := by
  cases c with
  | id kind =>
    obtain ⟨x, rfl, -⟩ := h
    simp [Codec.accepts]
  | enumeration decl =>
    obtain ⟨tag, name, t, -, rfl, -⟩ := h
    simp [Codec.accepts]
  | struct name fields form wrapped =>
    obtain ⟨vs, -, hv⟩ := h
    cases form with
    | mapping => cases hc
    | record type =>
      cases hv
      simp [Codec.accepts]
    | declared type =>
      obtain rfl := record_eq_ok hv
      simp [Codec.accepts]
    | typeSystem =>
      obtain ⟨ts, rfl⟩ := exists_toValue_of_value hv
      simp [Codec.accepts, TypeSystem.toValue]
  | _ => cases hc

/-- The payload of a variant is what its codec reads; it carries the name of the variant, unless it
tells on its own what it is of. -/
theorem EncodesVariant.exists_variant {variants : List (Nat × String × Codec)} {tag : Nat}
    {v : Value} {p : Octets} (h : EncodesVariant tag variants v p) :
    ∃ before x after, variants = before ++ x :: after ∧ x.1 = tag ∧ ∃ payload,
      x.2.2.Encodes payload p ∧
      v = if x.2.2.discriminated then payload else .tagged x.2.1 payload := by
  induction variants with
  | nil => exact h.elim
  | cons x variants ih =>
    rw [EncodesVariant] at h
    split at h
    · rename_i htag
      exact ⟨[], x, variants, rfl, htag, h⟩
    · obtain ⟨before, y, after, rfl, hy⟩ := ih h
      exact ⟨x :: before, y, after, rfl, hy⟩

/-- A payload given by name is written under the variant with the name. -/
theorem writeNamed_append {union variant : String} {before rest : List (Nat × String × Codec)}
    (h : ∀ x ∈ before, x.2.1 ≠ variant) (payload : Value) :
    writeNamed union variant (before ++ rest) payload = writeNamed union variant rest payload := by
  induction before with
  | nil => rfl
  | cons x before ih =>
    rw [List.forall_mem_cons] at h
    rw [List.cons_append, writeNamed, if_neg h.1, ih h.2]

/-- A value is written under the first variant that accepts it. -/
theorem writeAccepted_append {union : String} {before rest : List (Nat × String × Codec)} {v : Value}
    (h : ∀ x ∈ before, x.2.2.accepts v = false) :
    writeAccepted union (before ++ rest) v = writeAccepted union rest v := by
  induction before with
  | nil => rfl
  | cons x before ih =>
    rw [List.forall_mem_cons] at h
    rw [List.cons_append, writeAccepted, h.1, ih h.2]
    rfl

/-- What tells on its own what it is of carries no name of a variant. -/
theorem not_tagged_of_accepts {c : Codec} {variant : String} {payload : Value} :
    c.accepts (.tagged variant payload) = false := by
  unfold Codec.accepts
  split <;> simp_all

/-- Unions write a variant under the tag that it was read from, as long as its name is its own and no
variant in front of it accepts its values. -/
theorem reencodes_union {name : String} {variants : List (Nat × String × Codec)}
    (hnames : (variants.map fun x => x.2.1).Nodup)
    (haccepts : variants.Pairwise fun x y => ∀ v p, y.2.2.discriminated = true →
      y.2.2.Encodes v p → x.2.2.accepts v = false)
    (hvariants : ∀ x ∈ variants, Reencodes x.2.2) : Reencodes (union name variants) := by
  rintro v p ⟨tag, q, rfl, hv⟩
  -- the payload was read for `x`, the first variant with the tag
  obtain ⟨before, x, after, rfl, htag, payload, hp, rfl⟩ := EncodesVariant.exists_variant hv
  have htag : UInt8.ofNat x.1 = tag := by rw [htag, UInt8.ofNat_toNat]
  have hq := hvariants x (by simp) hp
  cases hdiscriminated : x.2.2.discriminated with
  | false =>
    have hfresh : ∀ y ∈ before, y.2.1 ≠ x.2.1 := by
      rw [List.map_append, List.nodup_append] at hnames
      exact fun y hy => hnames.2.2 _ (List.mem_map_of_mem hy) _ (List.mem_cons_self ..)
    rw [if_neg (by simp), write, writeNamed_append hfresh, writeNamed, if_pos rfl, htag]
    exact bind_eq_ok.2 ⟨q, inside_eq_ok.2 hq, rfl⟩
  | true =>
    have hown := hp.accepts hdiscriminated
    have hothers : ∀ y ∈ before, y.2.2.accepts payload = false := fun y hy =>
      (List.pairwise_append.1 haccepts).2.2 y hy x (List.mem_cons_self ..) _ _ hdiscriminated hp
    rw [if_pos rfl, write]
    · rw [writeAccepted_append hothers, writeAccepted, if_pos hown, htag]
      exact bind_eq_ok.2 ⟨q, inside_eq_ok.2 hq, rfl⟩
    · rintro variant value rfl
      rw [not_tagged_of_accepts] at hown
      cases hown

end Codec

end StrictContract
