import StrictContract.Proofs.Codec.Encoding
import StrictContract.Proofs.Codec.Parts
import StrictContract.Proofs.Codec.Recovery
import StrictContract.Proofs.Value.Intact

/-! # Spelling — the byte strings of a codec

A codec **spells** a byte string that has the shape of an encoding, whatever value there may be
behind it. What is read is spelled, and what is written for an intact value is spelled; a codec that is
**steady** reads all that it spells, and fails on everything else with an error of the library. -/

namespace StrictContract

namespace Codec

mutual

/-- The byte strings that a codec **spells**. -/
def Spells : Codec → Octets → Prop
  | unit, p => p = []
  | bool, p => ∃ b : Bool, p = [if b then 1 else 0]
  | unicode, p => ∃ c : Char, p = Octets.ofNat 4 c.toNat
  | uint size, p => p.length = size
  | sint size, p => p.length = size
  | byteArray size, p => p.length = size
  | id _, p => p.length = 32
  | bytes b _, p => ∃ octets : Octets, b.admits octets.length = true ∧
      p = b.lengthPrefix octets.length ++ octets
  | ascii first rest b _, p => ∃ cs, writeText first rest b cs = .ok p
  | list item b _, p => ∃ ps : List Octets, b.admits ps.length = true ∧
      (∀ q ∈ ps, Spells item q) ∧ p = b.lengthPrefix ps.length ++ ps.flatten
  | set item b _ _, p => ∃ ps : List Octets, b.admits ps.length = true ∧
      (∀ q ∈ ps, Spells item q) ∧ ps.Pairwise (· < ·) ∧
      p = b.lengthPrefix ps.length ++ ps.flatten
  | map key value b _ _, p => ∃ es : List (Octets × Octets), b.admits es.length = true ∧
      (∀ e ∈ es, Spells key e.1 ∧ Spells value e.2) ∧ (es.map Prod.fst).Pairwise (· < ·) ∧
      p = b.lengthPrefix es.length ++ (es.map fun e => e.1 ++ e.2).flatten
  | array item count, p => ∃ ps : List Octets, ps.length = count ∧
      (∀ q ∈ ps, Spells item q) ∧ p = ps.flatten
  | option inner, p => p = [0] ∨ ∃ q, p = 1 :: q ∧ Spells inner q
  | tuple items, p => SpellsItems items p
  | struct _ fields _ _, p => SpellsFields fields p
  | union _ variants, p => ∃ (tag : UInt8) (q : Octets), p = tag :: q ∧
      SpellsVariant tag.toNat variants q
  | enumeration decl, p => ∃ (tag : UInt8) (name : String),
      (name, tag.toNat) ∈ decl.names ∧ p = [tag]

/-- The byte strings that several codecs spell, one after another. -/
def SpellsItems : List Codec → Octets → Prop
  | [], p => p = []
  | c :: rest, p => ∃ q t, p = q ++ t ∧ Spells c q ∧ SpellsItems rest t

/-- The byte strings that the codecs of fields spell, one after another. -/
def SpellsFields : List (String × Codec) → Octets → Prop
  | [], p => p = []
  | (_, c) :: rest, p => ∃ q t, p = q ++ t ∧ Spells c q ∧ SpellsFields rest t

/-- The byte strings that the variants with a tag spell. -/
def SpellsVariant (tag : Nat) : List (Nat × String × Codec) → Octets → Prop
  | [], _ => False
  | (t, _, c) :: rest, p => (t = tag ∧ Spells c p) ∨ SpellsVariant tag rest p

end

attribute [local simp] Spells SpellsItems SpellsFields SpellsVariant

/-- Fields are spelled like the sequence of their codecs. -/
theorem spellsFields_iff {fields : List (String × Codec)} {p : Octets} :
    SpellsFields fields p ↔ SpellsItems (fields.map Prod.snd) p := by
  induction fields generalizing p with
  | nil => rw [SpellsFields, List.map_nil, SpellsItems]
  | cons f rest ih =>
    rw [SpellsFields, List.map_cons, SpellsItems]
    simp only [ih]

/-- A tag is spelled with what one of its variants spells. -/
theorem spellsVariant_iff {tag : Nat} {variants : List (Nat × String × Codec)} {p : Octets} :
    SpellsVariant tag variants p ↔ ∃ x ∈ variants, x.1 = tag ∧ x.2.2.Spells p := by
  induction variants with
  | nil => simp
  | cons x rest ih =>
    rw [SpellsVariant, ih]
    simp

/-! ## Pieces in a row -/

section

variable {item key value : Codec} {b : Bounds} {label : Option String}

/-- Pieces that an item spells are spelled by a list. -/
theorem spells_list {xs : List (Value × Octets)} (hn : b.admits xs.length = true)
    (hxs : ∀ x ∈ xs, item.Spells x.2) :
    (list item b label).Spells (b.lengthPrefix xs.length ++ (xs.map Prod.snd).flatten) :=
  ⟨xs.map Prod.snd, by rwa [List.length_map], List.forall_mem_map.2 hxs, by rw [List.length_map]⟩

/-- Ascending pieces that an element spells are spelled by a set. -/
theorem spells_set {form : SetForm} {xs : List (Value × Octets)} (hn : b.admits xs.length = true)
    (hxs : ∀ x ∈ xs, item.Spells x.2) (hlt : (xs.map Prod.snd).Pairwise (· < ·)) :
    (set item b form label).Spells (b.lengthPrefix xs.length ++ (xs.map Prod.snd).flatten) :=
  ⟨xs.map Prod.snd, by rwa [List.length_map], List.forall_mem_map.2 hxs, hlt, by rw [List.length_map]⟩

/-- Pieces that a key and a value spell, with ascending keys, are spelled by a map. -/
theorem spells_map {form : MapForm} {es : List ((Value × Octets) × (Value × Octets))}
    (hn : b.admits es.length = true) (hes : ∀ e ∈ es, key.Spells e.1.2 ∧ value.Spells e.2.2)
    (hlt : (es.map (·.1.2)).Pairwise (· < ·)) :
    (map key value b form label).Spells
      (b.lengthPrefix es.length ++ (es.map fun e => e.1.2 ++ e.2.2).flatten) := by
  refine ⟨es.map fun e => (e.1.2, e.2.2), by rwa [List.length_map], List.forall_mem_map.2 hes, ?_, ?_⟩
  · simpa [Function.comp_def] using hlt
  · simp [Function.comp_def]

end

/-! ## What is read -/

/-- What items are read from is what their codecs spell. -/
theorem spellsItems_of_encodesItems {items : List Codec}
    (ih : ∀ c ∈ items, ∀ v p, c.Encodes v p → c.Spells p) {vs : List Value} {p : Octets}
    (h : EncodesItems items vs p) : SpellsItems items p := by
  induction items generalizing vs p with
  | nil => exact h.2
  | cons c rest ihrest =>
    rw [List.forall_mem_cons] at ih
    rw [EncodesItems] at h
    obtain ⟨v, ws, q, t, -, rfl, hv, hws⟩ := h
    rw [SpellsItems]
    exact ⟨q, t, rfl, ih.1 v q hv, ihrest ih.2 hws⟩

/-- What fields are read from is what their codecs spell. -/
theorem spellsFields_of_encodesFields {fields : List (String × Codec)}
    (ih : ∀ f ∈ fields, ∀ v p, f.2.Encodes v p → f.2.Spells p) {vs : List (String × Value)}
    {p : Octets} (h : EncodesFields fields vs p) : SpellsFields fields p := by
  induction fields generalizing vs p with
  | nil => exact h.2
  | cons f rest ihrest =>
    rw [List.forall_mem_cons] at ih
    rw [EncodesFields] at h
    obtain ⟨v, ws, q, t, -, rfl, hv, hws⟩ := h
    rw [SpellsFields]
    exact ⟨q, t, rfl, ih.1 v q hv, ihrest ih.2 hws⟩

/-- What a payload is read from is spelled under its tag. -/
theorem spellsVariant_of_encodesVariant {variants : List (Nat × String × Codec)}
    (ih : ∀ x ∈ variants, ∀ v p, x.2.2.Encodes v p → x.2.2.Spells p) {tag : Nat} {v : Value}
    {p : Octets} (h : EncodesVariant tag variants v p) : SpellsVariant tag variants p := by
  induction variants with
  | nil => exact h.elim
  | cons x rest ihrest =>
    rw [List.forall_mem_cons] at ih
    rw [EncodesVariant] at h
    rw [SpellsVariant]
    split at h
    · rename_i ht
      obtain ⟨payload, hpayload, -⟩ := h
      exact .inl ⟨ht, ih.1 payload p hpayload⟩
    · exact .inr (ihrest ih.2 h)

/-- The number that stands behind a tag is that of a member. -/
theorem mem_names_of_lookUp {decl : Enumeration} {tag : Nat} {x : String × Nat}
    (h : decl.lookUp (.ofNat tag) = .ok (some x)) : (x.1, tag) ∈ decl.names := by
  obtain ⟨hfind, -⟩ := Enumeration.lookUp_eq_some.1 h
  obtain ⟨hmem, htag⟩ := Enumeration.find?_eq_some hfind
  obtain rfl : x.2 = tag := Int.ofNat.inj htag
  exact hmem

/-- Everything that is read is spelled. -/
theorem spells_of_encodes {c : Codec} : ∀ v p, c.Encodes v p → c.Spells p := by
  induction c using childInduction with | h c ih => ?_
  intro v p h
  cases c with
  | unit => exact h.2
  | bool =>
    obtain ⟨b, -, hp⟩ := h
    exact ⟨b, hp⟩
  | unicode =>
    obtain ⟨c, -, hp⟩ := h
    exact ⟨c, hp⟩
  | uint size => exact h.2
  | sint size => exact h.2
  | byteArray size => exact h.2
  | id kind =>
    obtain ⟨x, -, rfl⟩ := h
    exact x.length_octets
  | bytes b label =>
    obtain ⟨octets, hn, -, hp⟩ := h
    exact ⟨octets, hn, hp⟩
  | ascii first rest b label =>
    obtain ⟨cs, -, hp⟩ := h
    exact ⟨cs, hp⟩
  | list item b label =>
    obtain ⟨xs, hn, hxs, -, rfl⟩ := h
    have hitem := ih item (List.mem_singleton.2 rfl)
    exact spells_list hn fun x hx => hitem x.1 x.2 (hxs x hx)
  | set item b form label =>
    obtain ⟨xs, hn, hxs, hlt, -, rfl⟩ := h
    have hitem := ih item (List.mem_singleton.2 rfl)
    exact spells_set hn (fun x hx => hitem x.1 x.2 (hxs x hx)) hlt
  | map key value b form label =>
    obtain ⟨es, hn, hes, hlt, -, rfl⟩ := h
    have hkey := ih key (List.mem_cons_self ..)
    have hvalue := ih value (by simp [children])
    refine spells_map hn (fun e he => ?_) hlt
    obtain ⟨hk, -, hv⟩ := hes e he
    exact ⟨hkey _ _ hk, hvalue _ _ hv⟩
  | array item count =>
    obtain ⟨xs, hn, hxs, -, rfl⟩ := h
    have hitem := ih item (List.mem_singleton.2 rfl)
    exact ⟨xs.map Prod.snd, by rwa [List.length_map],
      List.forall_mem_map.2 fun x hx => hitem x.1 x.2 (hxs x hx), rfl⟩
  | option inner =>
    rcases h with ⟨-, rfl⟩ | ⟨q, rfl, hq⟩
    · exact .inl rfl
    · exact .inr ⟨q, rfl, ih inner (List.mem_singleton.2 rfl) v q hq⟩
  | tuple items =>
    obtain ⟨vs, -, hvs⟩ := h
    exact spellsItems_of_encodesItems ih hvs
  | struct name fields form wrapped =>
    obtain ⟨vs, hvs, -⟩ := h
    exact spellsFields_of_encodesFields (List.forall_mem_map.1 ih) hvs
  | union name variants =>
    obtain ⟨tag, q, rfl, hq⟩ := h
    exact ⟨tag, q, rfl, spellsVariant_of_encodesVariant (List.forall_mem_map.1 ih) hq⟩
  | enumeration decl =>
    obtain ⟨tag, name, t, hfound, -, rfl⟩ := h
    exact ⟨tag, name, mem_names_of_lookUp hfound, rfl⟩

/-! ## What is written -/

/-- What can be recovered was spelled. -/
theorem Recovers.spells {c : Codec} {v : Value} (hrecovers : Recovers c v) {p : Octets}
    (h : c.write v = .ok p) : c.Spells p := by
  obtain ⟨w, hw, -⟩ := hrecovers p h
  exact spells_of_encodes w p hw

/-- Items that are written one after another are spelled by their codec. -/
theorem exists_spelled {item : Codec}
    (ih : ∀ v p, v.isIntact = true → item.write v = .ok p → item.Spells p) {xs : List Value}
    (hxs : ∀ x ∈ xs, x.isIntact = true) {parts : List Octets}
    (h : (xs.zipIdx.mapM fun (x, i) => inside (indexSegment i) (item.write x)) = .ok parts) :
    parts.length = xs.length ∧ ∀ q ∈ parts, item.Spells q := by
  obtain ⟨ps, rfl, rfl, hps⟩ := mapM_eq_ok.1 ((mapM_zipIdx_eq_ok 0).1 h)
  rw [List.length_map, List.length_map]
  rw [List.forall_mem_map] at hxs
  exact ⟨rfl, List.forall_mem_map.2 fun q hq => ih q.1 q.2 (hxs q hq) (hps q hq)⟩

/-- What is written for a sequence is what its codecs spell. -/
theorem spellsItems_of_writeItems {items : List Codec}
    (ih : ∀ c ∈ items, ∀ v p, v.isIntact = true → c.write v = .ok p → c.Spells p) {i : Nat}
    {vs : List Value} (hvs : ∀ v ∈ vs, v.isIntact = true) {p : Octets}
    (hlength : vs.length = items.length) (h : writeItems items i vs = .ok p) :
    SpellsItems items p := by
  induction items generalizing i vs p with
  | nil =>
    rw [writeItems] at h
    · cases h
      rfl
    · nofun
  | cons c rest ihrest =>
    rw [List.forall_mem_cons] at ih
    cases vs with
    | nil => cases hlength
    | cons v vs =>
      rw [List.forall_mem_cons] at hvs
      rw [writeItems] at h
      obtain ⟨q, hq, h⟩ := bind_eq_ok.1 h
      obtain ⟨t, ht, h⟩ := bind_eq_ok.1 h
      cases h
      rw [SpellsItems]
      exact ⟨q, t, rfl, ih.1 v q hvs.1 (inside_eq_ok.1 hq),
        ihrest ih.2 hvs.2 (Nat.succ.inj hlength) ht⟩

/-- What is written for the fields of a value is what their codecs spell. -/
theorem spellsFields_of_writeFields {fields : List (String × Codec)}
    (ih : ∀ f ∈ fields, ∀ v p, v.isIntact = true → f.2.write v = .ok p → f.2.Spells p) {v : Value}
    (hv : v.isIntact = true) {p : Octets} (h : writeFields fields v = .ok p) :
    SpellsFields fields p := by
  induction fields generalizing p with
  | nil =>
    cases h
    rfl
  | cons f rest ihrest =>
    rw [List.forall_mem_cons] at ih
    rw [writeFields] at h
    obtain ⟨q, hq, h⟩ := bind_eq_ok.1 h
    obtain ⟨t, ht, h⟩ := bind_eq_ok.1 h
    cases h
    obtain ⟨x, hx, hq⟩ := bind_eq_ok.1 (inside_eq_ok.1 hq)
    rw [SpellsFields]
    exact ⟨q, t, rfl, ih.1 x q (Value.isIntact_of_field hv hx) hq, ihrest ih.2 ht⟩

/-- What is written for a payload given by name is spelled under its tag. -/
theorem spells_of_writeNamed {variants : List (Nat × String × Codec)}
    (ih : ∀ x ∈ variants, ∀ v p, v.isIntact = true → x.2.2.write v = .ok p → x.2.2.Spells p)
    (hsmall : ∀ x ∈ variants, x.1 < 256) {union variant : String} {v : Value}
    (hv : v.isIntact = true) {p : Octets} (h : writeNamed union variant variants v = .ok p) :
    ∃ (tag : UInt8) (q : Octets), p = tag :: q ∧ SpellsVariant tag.toNat variants q := by
  induction variants with
  | nil => cases h
  | cons x rest ihrest =>
    rw [List.forall_mem_cons] at ih hsmall
    rw [writeNamed] at h
    split at h
    · obtain ⟨q, hq, h⟩ := bind_eq_ok.1 h
      cases h
      refine ⟨_, q, rfl, .inl ⟨?_, ih.1 v q hv (inside_eq_ok.1 hq)⟩⟩
      simp [Nat.mod_eq_of_lt hsmall.1]
    · obtain ⟨tag, q, rfl, hq⟩ := ihrest ih.2 hsmall.2 h
      exact ⟨tag, q, rfl, .inr hq⟩

/-- What is written for a value that says to be of a variant is spelled under its tag. -/
theorem spells_of_writeAccepted {variants : List (Nat × String × Codec)}
    (ih : ∀ x ∈ variants, ∀ v p, v.isIntact = true → x.2.2.write v = .ok p → x.2.2.Spells p)
    (hsmall : ∀ x ∈ variants, x.1 < 256) {union : String} {v : Value} (hv : v.isIntact = true)
    {p : Octets} (h : writeAccepted union variants v = .ok p) :
    ∃ (tag : UInt8) (q : Octets), p = tag :: q ∧ SpellsVariant tag.toNat variants q := by
  induction variants with
  | nil => cases h
  | cons x rest ihrest =>
    rw [List.forall_mem_cons] at ih hsmall
    rw [writeAccepted] at h
    split at h
    · obtain ⟨q, hq, h⟩ := bind_eq_ok.1 h
      cases h
      refine ⟨_, q, rfl, .inl ⟨?_, ih.1 v q hv (inside_eq_ok.1 hq)⟩⟩
      simp [Nat.mod_eq_of_lt hsmall.1]
    · obtain ⟨tag, q, rfl, hq⟩ := ihrest ih.2 hsmall.2 h
      exact ⟨tag, q, rfl, .inr hq⟩

/-- Everything that is written for an intact value is spelled. -/
theorem spells_of_write {c : Codec} (hc : c.Throughout Checked) :
    ∀ v p, v.isIntact = true → c.write v = .ok p → c.Spells p := by
  induction c using childInduction with | h c ih => ?_
  replace ih : ∀ s ∈ c.children, ∀ v p, v.isIntact = true → s.write v = .ok p → s.Spells p :=
    fun s hs => ih s hs (hc.child hs)
  intro v p hv h
  cases c with
  | unit => exact (recovers_unit v).spells h
  | bool => exact (recovers_bool v).spells h
  | unicode =>
    rw [write.eq_def] at h
    dsimp only at h
    split at h
    · rename_i hpoint
      obtain ⟨c, rfl⟩ := Value.exists_character hv hpoint
      cases h
      exact ⟨c, rfl⟩
    · obtain ⟨_, -, h⟩ := bind_eq_ok.1 h
      cases h
  | uint size => exact (recovers_uint size v).spells h
  | sint size => exact (recovers_sint size v).spells h
  | byteArray size =>
    rw [write, writeArray] at h
    obtain ⟨octets, -, h⟩ := bind_eq_ok.1 h
    split at h
    · cases h
      assumption
    · cases h
  | id kind => exact (recovers_id kind v).spells h
  | bytes b label => exact (recovers_bytes b label v).spells h
  | ascii first rest b label => exact (recovers_ascii first rest b label v).spells h
  | list item b label =>
    obtain ⟨xs, hvisited, hn, hxs, rfl⟩ := write_list_eq_ok.1 h
    have hintact := List.forall_mem_map.1 (Value.isIntact_of_items? hv hvisited)
    have hitem := ih item (List.mem_singleton.2 rfl)
    exact spells_list hn fun x hx => hitem x.1 x.2 (hintact x hx) (hxs x hx)
  | set item b form label =>
    obtain ⟨xs, ys, hvisited, hxs, hperm, hlt, hn, rfl⟩ := write_set_eq_ok.1 h
    have hintact := List.forall_mem_map.1 (Value.isIntact_of_items? hv hvisited)
    have hitem := ih item (List.mem_singleton.2 rfl)
    refine spells_set hn (fun y hy => ?_) hlt
    have hx := hperm.mem_iff.1 hy
    exact hitem y.1 y.2 (hintact y hx) (hxs y hx)
  | map key value b form label =>
    obtain ⟨es, fs, hitems, hes, hperm, hlt, hn, rfl⟩ := write_map_eq_ok.1 h
    have hintact := List.forall_mem_map.1 (Value.isIntact_of_mapItems hv hitems)
    have hkey := ih key (List.mem_cons_self ..)
    have hvalue := ih value (by simp [children])
    refine spells_map hn (fun f hf => ?_) hlt
    -- the entries are written in another order than that of the map
    obtain ⟨e, he, rfl⟩ := List.mem_map.1 (hperm.mem_iff.1 hf)
    obtain ⟨hpair, hk, hx⟩ := hes e he
    obtain ⟨hleft, hright⟩ := Value.isIntact_of_unpair (hintact e he) hpair
    exact ⟨hkey _ _ hleft hk, hvalue _ _ hright hx⟩
  | array item count =>
    rw [write] at h
    obtain ⟨items, hiterate, h⟩ := bind_eq_ok.1 h
    obtain ⟨hcount, h⟩ := unless_eq_ok.1 h
    obtain ⟨parts, hparts, h⟩ := bind_eq_ok.1 h
    cases h
    obtain ⟨hlength, hparts⟩ := exists_spelled (ih item (List.mem_singleton.2 rfl))
      (Value.isIntact_of_items? hv (Value.iterate_eq_ok.1 hiterate)) hparts
    exact ⟨parts, hlength.trans (Decidable.not_not.1 hcount), hparts, rfl⟩
  | option inner =>
    rw [write.eq_def] at h
    dsimp only at h
    split at h
    · cases h
      exact .inl rfl
    · obtain ⟨q, hq, h⟩ := bind_eq_ok.1 h
      cases h
      exact .inr ⟨q, rfl, ih inner (List.mem_singleton.2 rfl) _ q hv hq⟩
  | tuple items =>
    rw [write] at h
    obtain ⟨values, hiterate, h⟩ := bind_eq_ok.1 h
    obtain ⟨hlength, h⟩ := unless_eq_ok.1 h
    exact spellsItems_of_writeItems ih (Value.isIntact_of_items? hv (Value.iterate_eq_ok.1 hiterate))
      (Decidable.not_not.1 hlength) h
  | struct name fields form wrapped =>
    have ihfields := List.forall_mem_map.1 ih
    rw [write] at h
    split at h
    · rename_i hbare
      -- only a wrapped struct is written bare, and it has one field
      obtain rfl : wrapped = true := by simp_all
      obtain ⟨⟨field, c⟩, rfl⟩ := List.length_eq_one_iff.1 hc.self
      have hspells := ih c (List.mem_singleton.2 rfl) v p hv (inside_eq_ok.1 h)
      exact ⟨p, [], (List.append_nil p).symm, hspells, rfl⟩
    · exact spellsFields_of_writeFields ihfields hv h
  | union name variants =>
    have ihvariants := List.forall_mem_map.1 ih
    rw [write.eq_def] at h
    dsimp only at h
    split at h
    · rename_i payload
      have hpayload : payload.isIntact = true := hv
      exact spells_of_writeNamed ihvariants hc.self.1 hpayload h
    · exact spells_of_writeAccepted ihvariants hc.self.1 hv h
  | enumeration decl => exact (recovers_enumeration hc.self v).spells h

end Codec

end StrictContract
