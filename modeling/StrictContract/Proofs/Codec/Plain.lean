import StrictContract.Proofs.Codec.Strictness

/-! # Plain codecs — codecs that stand for nothing but a shape

A **plain** codec reads no members and no records: its sets are sequences, its maps are pairs, its
structs are mappings. Whatever a plain codec reads can be shown, so plain codecs are steady. -/

namespace StrictContract

namespace Value

/-- The items of a sequence can be shown when each of them can. -/
theorem unshownItem?_eq_none {vs : List Value} :
    unshownItem? vs = none ↔ ∀ v ∈ vs, v.unshown? = none := by
  induction vs with
  | nil => simp [unshownItem?]
  | cons v vs ih => simp [unshownItem?, ih]

/-- The entries of a mapping can be shown when all keys and values can. -/
theorem unshownEntry?_eq_none {es : List (Value × Value)} :
    unshownEntry? es = none ↔ ∀ e ∈ es, e.1.unshown? = none ∧ e.2.unshown? = none := by
  induction es with
  | nil => simp [ unshownEntry?]
  | cons e es ih => simp [ unshownEntry?, ih, and_assoc]

/-- What can be shown and is no member has a label. -/
theorem hasLabel_of_unshown?_eq_none {v : Value} (h : v.unshown? = none)
    (hmember : ∀ decl name tag, v ≠ .member decl name tag) : v.HasLabel := by
  cases v with
  | member decl name tag => exact absurd rfl (hmember decl name tag)
  | _ => exact ⟨_, by rw [labelled.eq_def]; dsimp only; rw [h]⟩

end Value

namespace Codec

/-- A **plain** codec: sets are sequences, maps are pairs, structs are mappings of all their fields,
the tags of unions ascend in one byte, and there are no enumerations. -/
def Plain : Codec → Prop
  | set _ _ form _ => form = .sequence
  | map _ _ _ form _ => form = .pairs
  | struct _ _ form wrapped => form = .mapping ∧ wrapped = false
  | union _ variants => (∀ x ∈ variants, x.1 < 256) ∧ variants.Pairwise fun x y => x.1 < y.1
  | enumeration _ => False
  | _ => True

/-- Plain codecs are checked. -/
theorem Plain.checked {c : Codec} (h : c.Plain) : c.Checked := by
  cases c with
  | struct name fields form wrapped =>
    obtain ⟨-, rfl⟩ := h
    trivial
  | union name variants => exact h
  | enumeration decl => exact h.elim
  | _ => trivial

/-- A value that stands for nothing but its shape: it can be shown, and has a label. -/
def Shown (v : Value) : Prop := v.unshown? = none ∧ ∀ decl name tag, v ≠ .member decl name tag

/-- What is read for several codecs can be shown if what each of them reads can. -/
theorem shown_of_encodesItems {items : List Codec}
    (ih : ∀ c ∈ items, ∀ v p, c.Encodes v p → Shown v) {vs : List Value} {p : Octets}
    (h : EncodesItems items vs p) : ∀ v ∈ vs, Shown v := by
  induction items generalizing vs p with
  | nil =>
    obtain ⟨rfl, -⟩ := h
    nofun
  | cons c rest ihrest =>
    rw [List.forall_mem_cons] at ih
    rw [EncodesItems] at h
    obtain ⟨v, ws, q, t, rfl, rfl, hv, hws⟩ := h
    exact List.forall_mem_cons.2 ⟨ih.1 v q hv, ihrest ih.2 hws⟩

/-- What is read for fields can be shown if what each of their codecs reads can. -/
theorem shown_of_encodesFields {fields : List (String × Codec)}
    (ih : ∀ f ∈ fields, ∀ v p, f.2.Encodes v p → Shown v) {vs : List (String × Value)} {p : Octets}
    (h : EncodesFields fields vs p) : ∀ f ∈ vs, Shown f.2 := by
  induction fields generalizing vs p with
  | nil =>
    obtain ⟨rfl, -⟩ := h
    nofun
  | cons f rest ihrest =>
    rw [List.forall_mem_cons] at ih
    rw [EncodesFields] at h
    obtain ⟨v, ws, q, t, rfl, rfl, hv, hws⟩ := h
    exact List.forall_mem_cons.2 ⟨ih.1 v q hv, ihrest ih.2 hws⟩

/-- What is read for a payload can be shown if what each variant reads can. -/
theorem shown_of_encodesVariant {variants : List (Nat × String × Codec)}
    (ih : ∀ x ∈ variants, ∀ v p, x.2.2.Encodes v p → Shown v) {tag : Nat} {v : Value} {p : Octets}
    (h : EncodesVariant tag variants v p) : Shown v := by
  induction variants with
  | nil => exact h.elim
  | cons x rest ihrest =>
    rw [List.forall_mem_cons] at ih
    rw [EncodesVariant] at h
    split at h
    · obtain ⟨payload, hpayload, rfl⟩ := h
      have hshown := ih.1 payload p hpayload
      split
      · exact hshown
      · exact ⟨hshown.1, nofun⟩
    · exact ihrest ih.2 h

/-- Everything that a plain codec reads can be shown. -/
theorem shown_of_encodes {c : Codec} (hplain : c.Throughout Plain) :
    ∀ v p, c.Encodes v p → Shown v := by
  induction c using childInduction with | h c ih => ?_
  replace ih : ∀ s ∈ c.children, ∀ v p, s.Encodes v p → Shown v :=
    fun s hs => ih s hs (hplain.child hs)
  -- lists, sets, maps, arrays and tuples all come back as sequences
  have htuple : ∀ vs : List Value, (∀ v ∈ vs, Shown v) → Shown (.tuple vs) :=
    fun vs hvs => ⟨Value.unshownItem?_eq_none.2 fun v hv => (hvs v hv).1, by simp⟩
  intro v p h
  have hself := hplain.self
  cases c with
  | unit | uint size | sint size | byteArray size =>
    obtain ⟨rfl, -⟩ := h
    exact ⟨rfl, by simp⟩
  | bool | unicode | id kind =>
    obtain ⟨_, rfl, -⟩ := h
    exact ⟨rfl, by simp⟩
  | bytes b label =>
    obtain ⟨octets, -, rfl, -⟩ := h
    exact ⟨rfl, by simp⟩
  | ascii first rest b label =>
    obtain ⟨cs, rfl, -⟩ := h
    exact ⟨rfl, by simp⟩
  | list item b label | array item count =>
    obtain ⟨xs, -, hxs, rfl, -⟩ := h
    have hitem := ih item (List.mem_singleton.2 rfl)
    exact htuple _ (List.forall_mem_map.2 fun x hx => hitem x.1 x.2 (hxs x hx))
  | set item b form label =>
    obtain rfl : form = .sequence := hself
    obtain ⟨xs, -, hxs, -, ⟨⟩, -⟩ := h
    have hitem := ih item (List.mem_singleton.2 rfl)
    exact htuple _ (List.forall_mem_map.2 fun x hx => hitem x.1 x.2 (hxs x hx))
  | map key value b form label =>
    obtain rfl : form = .pairs := hself
    obtain ⟨es, -, hes, -, ⟨⟩, -⟩ := h
    have hkey := ih key (List.mem_cons_self ..)
    have hvalue := ih value (by simp [children])
    refine htuple _ ?_
    rw [List.map_map]
    refine List.forall_mem_map.2 fun e he => htuple _ ?_
    obtain ⟨hk, -, hv⟩ := hes e he
    simpa using ⟨hkey _ _ hk, hvalue _ _ hv⟩
  | option inner =>
    rcases h with ⟨rfl, -⟩ | ⟨q, -, hq⟩
    · exact ⟨rfl, by simp⟩
    · exact ih inner (List.mem_singleton.2 rfl) v q hq
  | tuple items =>
    obtain ⟨vs, rfl, hvs⟩ := h
    exact htuple _ (shown_of_encodesItems ih hvs)
  | struct name fields form wrapped =>
    obtain ⟨rfl, rfl⟩ := hself
    obtain ⟨vs, hvs, ⟨⟩⟩ := h
    have hshown := shown_of_encodesFields (List.forall_mem_map.1 ih) hvs
    refine ⟨Value.unshownEntry?_eq_none.2 (List.forall_mem_map.2 fun f hf => ?_), by simp [Value.ofFields]⟩
    exact ⟨rfl, (hshown f hf).1⟩
  | union name variants =>
    obtain ⟨tag, q, -, hq⟩ := h
    exact shown_of_encodesVariant (List.forall_mem_map.1 ih) hq
  | enumeration decl => exact hself.elim

/-- Plain codecs are steady. -/
theorem steady_of_plain {c : Codec} (h : c.Throughout Plain) : c.Steady := by
  have hself := h.self
  cases c with
  | set item b form label =>
    obtain rfl : form = .sequence := hself
    trivial
  | map key value b form label =>
    obtain rfl : form = .pairs := hself
    intro v p hv
    have hshown := shown_of_encodes (h.child (List.mem_cons_self ..)) v p hv
    exact ⟨Value.hasLabel_of_unshown?_eq_none hshown.1 hshown.2, nofun⟩
  | struct name fields form wrapped =>
    obtain ⟨rfl, -⟩ := hself
    trivial
  | enumeration decl => exact hself.elim
  | _ => trivial

namespace Throughout

variable {c : Codec}

/-- What is plain throughout is steady throughout. -/
theorem steady (h : c.Throughout Plain) : c.Throughout Steady := by
  intro s hs
  refine steady_of_plain fun t ht => ?_
  exact h t (ht.trans hs)

/-- What is plain throughout is checked throughout. -/
theorem checked (h : c.Throughout Plain) : c.Throughout Checked :=
  fun s hs => (h s hs).checked

end Throughout

end Codec

end StrictContract
