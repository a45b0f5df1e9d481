import StrictContract.Proofs.Codec.Spelling

/-! # Steady codecs — when only an error of the library keeps bytes from being read

A codec is **receptive** when whatever it reads on the way can be an element, a key or a field where
it has to be one: it reads everything that it spells. A **steady** codec also answers for bytes that
it does not spell: it fails on them with an error of the library, not with a misuse. -/

namespace StrictContract

namespace Codec

/-- A **receptive** codec: what is read as a member of a set or as a key may be one, keys have labels,
and declared records take whatever fields there are. A type system is checked when it is read, so it
is not receptive. -/
def Receptive : Codec → Prop
  | set item _ .members _ => ∀ v p, item.Encodes v p → v.isKey = true
  | map key _ _ form _ => ∀ v p, key.Encodes v p →
      v.HasLabel ∧ (form = .mapping → v.isKey = true)
  | struct _ _ (.declared type) _ => ∀ fields, ∃ v, type.record fields = .ok v
  | struct _ _ .typeSystem _ => False
  | _ => True

/-- A **steady** codec: a receptive one of which enumerations answer for every tag. -/
def Steady : Codec → Prop
  | set item _ .members _ => ∀ v p, item.Encodes v p → v.isKey = true
  | map key _ _ form _ => ∀ v p, key.Encodes v p →
      v.HasLabel ∧ (form = .mapping → v.isKey = true)
  | struct _ _ (.declared type) _ => ∀ fields, ∃ v, type.record fields = .ok v
  | struct _ _ .typeSystem _ => False
  | enumeration decl => ∀ tag : Nat, ∃ found, decl.lookUp (.ofNat tag) = .ok found
  | _ => True

/-- A steady codec is receptive. -/
theorem Steady.receptive {c : Codec} (h : c.Steady) : c.Receptive := by
  cases c with
  | set item b form label => cases form <;> exact h
  | struct name fields form wrapped => cases form <;> exact h
  | map => exact h
  | _ => trivial

/-- Keys in a list are keys. -/
theorem areKeys_iff {vs : List Value} : Value.areKeys vs = true ↔ ∀ v ∈ vs, v.isKey = true := by
  induction vs with
  | nil => simp [Value.areKeys]
  | cons v vs ih => rw [Value.areKeys, Bool.and_eq_true, ih, List.forall_mem_cons]

/-- Elements that are keys make a set. -/
theorem exists_setValue {form : SetForm} {vs : List Value}
    (h : form = .members → ∀ v ∈ vs, v.isKey = true) : ∃ v, form.value vs = .ok v := by
  cases form with
  | sequence => exact ⟨_, rfl⟩
  | members => exact ⟨_, by rw [SetForm.value, if_pos (areKeys_iff.2 (h rfl))]⟩

/-- Entries with keys make a map. -/
theorem exists_mapValue {form : MapForm} {es : List (Value × Value)}
    (h : form = .mapping → ∀ e ∈ es, e.1.isKey = true) : ∃ v, form.value es = .ok v := by
  cases form with
  | pairs => exact ⟨_, rfl⟩
  | mapping =>
    have hkeys := areKeys_iff.2 (List.forall_mem_map.2 (h rfl))
    exact ⟨_, by rw [MapForm.value, if_pos hkeys]⟩

/-- Fields of a receptive struct make a value. -/
theorem exists_structValue {name : String} {fields : List (String × Codec)} {form : StructForm}
    {wrapped : Bool} (h : (struct name fields form wrapped).Receptive) (vs : List (String × Value)) :
    ∃ v, form.value wrapped vs = .ok v := by
  cases form with
  | mapping =>
    cases wrapped with
    | false => exact ⟨_, rfl⟩
    | true =>
      cases vs with
      | nil => exact ⟨_, rfl⟩
      | cons x vs => exact ⟨_, rfl⟩
  | record type => exact ⟨_, rfl⟩
  | declared type => exact h vs
  | typeSystem => exact h.elim

/-- A tag that a name has stands for a member. -/
theorem exists_lookUp {decl : Enumeration} {name : String} {tag : Nat}
    (h : (name, tag) ∈ decl.names) : ∃ x, decl.lookUp (.ofNat tag) = .ok (some x) := by
  have hfind : (decl.find? tag).isSome = true :=
    List.find?_isSome.2 ⟨(name, tag), h, beq_self_eq_true _⟩
  obtain ⟨x, hx⟩ := Option.isSome_iff_exists.1 hfind
  exact ⟨x, Enumeration.lookUp_eq_some.2 ⟨hx, nofun⟩⟩

/-! ## Reading what is spelled -/

/-- Pieces that can be read are the pieces of values. -/
theorem exists_readable {item : Codec} {ps : List Octets} (h : ∀ q ∈ ps, ∃ v, item.Encodes v q) :
    ∃ xs : List (Value × Octets), ps = xs.map Prod.snd ∧ ∀ x ∈ xs, item.Encodes x.1 x.2 :=
  exists_eq_map fun q hq => by
    obtain ⟨v, hv⟩ := h q hq
    exact ⟨(v, q), rfl, hv⟩

/-- A receptive set that is spelled can be read. -/
theorem exists_encodes_set {item : Codec} {b : Bounds} {form : SetForm} {label : Option String}
    (hset : (set item b form label).Receptive)
    (hitem : ∀ p, item.Spells p → ∃ v, item.Encodes v p) {p : Octets}
    (h : (set item b form label).Spells p) : ∃ v, (set item b form label).Encodes v p := by
  obtain ⟨ps, hn, hps, hlt, rfl⟩ := h
  obtain ⟨xs, rfl, hxs⟩ := exists_readable fun q hq => hitem q (hps q hq)
  rw [List.length_map] at hn ⊢
  have hkeys : form = .members → ∀ v ∈ xs.map Prod.fst, v.isKey = true := by
    rintro rfl
    exact List.forall_mem_map.2 fun x hx => hset _ _ (hxs x hx)
  obtain ⟨v, hv⟩ := exists_setValue hkeys
  exact ⟨v, xs, hn, hxs, hlt, hv, rfl⟩

/-- A receptive map that is spelled can be read. -/
theorem exists_encodes_map {key value : Codec} {b : Bounds} {form : MapForm} {label : Option String}
    (hmap : (map key value b form label).Receptive)
    (hkey : ∀ p, key.Spells p → ∃ v, key.Encodes v p)
    (hvalue : ∀ p, value.Spells p → ∃ v, value.Encodes v p) {p : Octets}
    (h : (map key value b form label).Spells p) : ∃ v, (map key value b form label).Encodes v p := by
  obtain ⟨es, hn, hes, hlt, rfl⟩ := h
  have hread : ∀ e ∈ es, ∃ x : (Value × Octets) × (Value × Octets), (x.1.2, x.2.2) = e ∧
      key.Encodes x.1.1 x.1.2 ∧ value.Encodes x.2.1 x.2.2 := by
    intro e he
    obtain ⟨k, hk⟩ := hkey e.1 (hes e he).1
    obtain ⟨v, hv⟩ := hvalue e.2 (hes e he).2
    exact ⟨((k, e.1), (v, e.2)), rfl, hk, hv⟩
  obtain ⟨xs, rfl, hxs⟩ := exists_eq_map hread
  have hkeys : form = .mapping → ∀ e ∈ xs.map fun x => (x.1.1, x.2.1), e.1.isKey = true :=
    fun hform => List.forall_mem_map.2 fun x hx => (hmap _ _ (hxs x hx).1).2 hform
  obtain ⟨v, hv⟩ := exists_mapValue hkeys
  rw [List.length_map] at hn ⊢
  refine ⟨v, xs, hn, ?_, ?_, hv, ?_⟩
  · intro x hx
    obtain ⟨hk, hx'⟩ := hxs x hx
    exact ⟨hk, (hmap _ _ hk).1, hx'⟩
  · simpa [Function.comp_def] using hlt
  · simp [Function.comp_def]

/-- Items that are spelled can be read. -/
theorem exists_encodesItems {items : List Codec}
    (ih : ∀ c ∈ items, ∀ p, c.Spells p → ∃ v, c.Encodes v p) {p : Octets}
    (h : SpellsItems items p) : ∃ vs, EncodesItems items vs p := by
  induction items generalizing p with
  | nil => exact ⟨[], rfl, h⟩
  | cons c rest ihrest =>
    rw [List.forall_mem_cons] at ih
    rw [SpellsItems] at h
    obtain ⟨q, t, rfl, hq, ht⟩ := h
    obtain ⟨v, hv⟩ := ih.1 q hq
    obtain ⟨vs, hvs⟩ := ihrest ih.2 ht
    exact ⟨v :: vs, v, vs, q, t, rfl, rfl, hv, hvs⟩

/-- Fields that are spelled can be read. -/
theorem exists_encodesFields {fields : List (String × Codec)}
    (ih : ∀ f ∈ fields, ∀ p, f.2.Spells p → ∃ v, f.2.Encodes v p) {p : Octets}
    (h : SpellsFields fields p) : ∃ vs, EncodesFields fields vs p := by
  induction fields generalizing p with
  | nil => exact ⟨[], rfl, h⟩
  | cons f rest ihrest =>
    rw [List.forall_mem_cons] at ih
    rw [SpellsFields] at h
    obtain ⟨q, t, rfl, hq, ht⟩ := h
    obtain ⟨v, hv⟩ := ih.1 q hq
    obtain ⟨vs, hvs⟩ := ihrest ih.2 ht
    exact ⟨(f.1, v) :: vs, v, vs, q, t, rfl, rfl, hv, hvs⟩

/-- A payload that is spelled under a tag can be read if no other variant has the tag. -/
theorem exists_encodesVariant {variants : List (Nat × String × Codec)}
    (ih : ∀ x ∈ variants, ∀ p, x.2.2.Spells p → ∃ v, x.2.2.Encodes v p)
    (htags : variants.Pairwise fun x y => x.1 < y.1) {tag : Nat} {p : Octets}
    (h : SpellsVariant tag variants p) : ∃ v, EncodesVariant tag variants v p := by
  induction variants with
  | nil => exact h.elim
  | cons x rest ihrest =>
    rw [List.forall_mem_cons] at ih
    rw [List.pairwise_cons] at htags
    rw [SpellsVariant] at h
    by_cases ht : x.1 = tag
    · -- tags ascend, so none of the later variants has this tag
      have hx : x.2.2.Spells p := by
        rcases h with h | h
        · exact h.2
        · obtain ⟨y, hy, hytag, -⟩ := spellsVariant_iff.1 h
          exact absurd (htags.1 y hy) (by omega)
      obtain ⟨v, hv⟩ := ih.1 p hx
      refine ⟨if x.2.2.discriminated then v else .tagged x.2.1 v, ?_⟩
      rw [EncodesVariant, if_pos ht]
      exact ⟨v, hv, rfl⟩
    · obtain ⟨v, hv⟩ := ihrest ih.2 htags.2 (h.resolve_left fun h => ht h.1)
      refine ⟨v, ?_⟩
      rw [EncodesVariant, if_neg ht]
      exact hv

/-- A receptive codec reads everything that it spells. -/
theorem exists_encodes_of_receptive {c : Codec} (hchecked : c.Throughout Checked)
    (hreceptive : c.Throughout Receptive) : ∀ p, c.Spells p → ∃ v, c.Encodes v p := by
  induction c using childInduction with | h c ih => ?_
  replace ih : ∀ s ∈ c.children, ∀ p, s.Spells p → ∃ v, s.Encodes v p :=
    fun s hs => ih s hs (hchecked.child hs) (hreceptive.child hs)
  intro p h
  cases c with
  | unit => exact ⟨.null, rfl, h⟩
  | bool =>
    obtain ⟨b, hp⟩ := h
    exact ⟨.bool b, b, rfl, hp⟩
  | unicode =>
    obtain ⟨c, hp⟩ := h
    exact ⟨.text c.toString, c, rfl, hp⟩
  | uint size => exact ⟨_, rfl, h⟩
  | sint size => exact ⟨_, rfl, h⟩
  | byteArray size => exact ⟨_, rfl, h⟩
  | id kind => exact ⟨.id kind ⟨p, h⟩, ⟨p, h⟩, rfl, rfl⟩
  | bytes b label =>
    obtain ⟨octets, hn, hp⟩ := h
    exact ⟨.bytes octets, octets, hn, rfl, hp⟩
  | ascii first rest b label =>
    obtain ⟨cs, hp⟩ := h
    exact ⟨_, cs, rfl, hp⟩
  | list item b label =>
    obtain ⟨ps, hn, hps, rfl⟩ := h
    have hitem := ih item (List.mem_singleton.2 rfl)
    obtain ⟨xs, rfl, hxs⟩ := exists_readable fun q hq => hitem q (hps q hq)
    rw [List.length_map] at hn ⊢
    exact ⟨_, xs, hn, hxs, rfl, rfl⟩
  | set item b form label =>
    exact exists_encodes_set hreceptive.self (ih item (List.mem_singleton.2 rfl)) h
  | map key value b form label =>
    have hkey := ih key (List.mem_cons_self ..)
    have hvalue := ih value (by simp [children])
    exact exists_encodes_map hreceptive.self hkey hvalue h
  | array item count =>
    obtain ⟨ps, hn, hps, rfl⟩ := h
    have hitem := ih item (List.mem_singleton.2 rfl)
    obtain ⟨xs, rfl, hxs⟩ := exists_readable fun q hq => hitem q (hps q hq)
    rw [List.length_map] at hn
    exact ⟨_, xs, hn, hxs, rfl, rfl⟩
  | option inner =>
    rcases h with rfl | ⟨q, rfl, hq⟩
    · exact ⟨.null, .inl ⟨rfl, rfl⟩⟩
    · obtain ⟨v, hv⟩ := ih inner (List.mem_singleton.2 rfl) q hq
      exact ⟨v, .inr ⟨q, rfl, hv⟩⟩
  | tuple items =>
    obtain ⟨vs, hvs⟩ := exists_encodesItems ih h
    exact ⟨_, vs, rfl, hvs⟩
  | struct name fields form wrapped =>
    obtain ⟨vs, hvs⟩ := exists_encodesFields (List.forall_mem_map.1 ih) h
    obtain ⟨v, hv⟩ := exists_structValue hreceptive.self vs
    exact ⟨v, vs, hvs, hv⟩
  | union name variants =>
    obtain ⟨tag, q, rfl, hq⟩ := h
    obtain ⟨v, hv⟩ := exists_encodesVariant (List.forall_mem_map.1 ih) hchecked.self.2 hq
    exact ⟨v, tag, q, rfl, hv⟩
  | enumeration decl =>
    obtain ⟨tag, name, hmem, rfl⟩ := h
    obtain ⟨x, hx⟩ := exists_lookUp hmem
    exact ⟨_, tag, x.1, x.2, hx, rfl, rfl⟩

/-- A steady codec reads everything that it spells. -/
theorem exists_encodes_of_spells {c : Codec} (hchecked : c.Throughout Checked)
    (hsteady : c.Throughout Steady) : ∀ p, c.Spells p → ∃ v, c.Encodes v p :=
  exists_encodes_of_receptive hchecked fun s hs => (hsteady s hs).receptive

end Codec

end StrictContract
