import StrictContract.Proofs.Codec.Construction
import StrictContract.Proofs.Codec.Strictness
import StrictContract.Proofs.TypeSystem.Encoding

/-! # Unambiguous codecs — the canonical form of everything that is constructed

A constructed codec reads and writes in one canonical form, unless it is **ambiguous** somewhere: a
present value is null, a variant takes the values of another one, or elements of a set coincide that
were read from different bytes. The constructors do not check for all of this. A wrapped struct stands
for its only field, so it may read null without being optional or null itself. -/

namespace StrictContract.Codec

/-! ## Null -/

/-- A codec **reads null** if null is among its values: it is null itself, or optional, or a wrapped
struct that stands for such a codec. -/
inductive ReadsNull : Codec → Prop
  | unit : ReadsNull unit
  | option (inner : Codec) : ReadsNull (option inner)
  | wrapped {name field : String} {c : Codec} (h : ReadsNull c) :
      ReadsNull (struct name [(field, c)] .mapping true)

/-- Null does not tell on its own what it is of. -/
theorem not_accepts_null {c : Codec} : c.accepts .null = false := by
  unfold accepts
  split <;> simp_all

/-- What is read for a variant is not null. -/
theorem not_encodesVariant_null {variants : List (Nat × String × Codec)} {tag : Nat} {p : Octets} :
    ¬ EncodesVariant tag variants .null p := by
  intro h
  obtain ⟨before, x, after, -, -, payload, hp, hv⟩ := EncodesVariant.exists_variant h
  split at hv
  · rename_i hdiscriminated
    subst hv
    have haccepts := hp.accepts hdiscriminated
    rw [not_accepts_null] at haccepts
    cases haccepts
  · cases hv

/-- The codecs that have an encoding of null. -/
theorem exists_encodes_null_iff {c : Codec} (hc : c.Throughout Checked) :
    (∃ p, c.Encodes .null p) ↔ c.ReadsNull := by
  constructor
  · rintro ⟨p, h⟩
    induction c using childInduction generalizing p with | h c ih => ?_
    cases c with
    | unit => exact .unit
    | option inner => exact .option inner
    | struct name fields form wrapped =>
      obtain ⟨vs, hvs, hv⟩ := h
      cases form with
      | record type => cases hv
      | declared type => cases record_eq_ok hv
      | typeSystem =>
        obtain ⟨ts, hts⟩ := exists_toValue_of_value hv
        cases hts
      | mapping =>
        cases wrapped with
        | false => cases hv
        | true =>
          -- a wrapped struct reads what its field reads, so null if the field does
          obtain ⟨⟨field, c⟩, rfl⟩ := List.length_eq_one_iff.1 hc.self
          obtain ⟨x, ws, q, t, rfl, -, hx, -⟩ := hvs
          cases hv
          exact .wrapped (ih c (List.mem_singleton.2 rfl) (hc.child (List.mem_singleton.2 rfl)) q hx)
    | union name variants =>
      obtain ⟨tag, q, -, hq⟩ := h
      exact (not_encodesVariant_null hq).elim
    | set item b form label =>
      obtain ⟨xs, -, -, -, hv, -⟩ := h
      cases form with
      | sequence => cases hv
      | members =>
        rw [SetForm.value] at hv
        split at hv <;> cases hv
    | map key value b form label =>
      obtain ⟨es, -, -, -, hv, -⟩ := h
      cases form with
      | pairs => cases hv
      | mapping =>
        rw [MapForm.value] at hv
        split at hv <;> cases hv
    | uint size | sint size | byteArray size => cases h.1
    | bool | unicode | id kind | ascii first rest b label | tuple items =>
      obtain ⟨_, hv, -⟩ := h
      cases hv
    | bytes b label =>
      obtain ⟨octets, -, hv, -⟩ := h
      cases hv
    | list item b label | array item count =>
      obtain ⟨xs, -, -, hv, -⟩ := h
      cases hv
    | enumeration decl =>
      obtain ⟨tag, name, t, -, hv, -⟩ := h
      cases hv
  · intro h
    clear hc
    induction h with
    | unit => exact ⟨[], rfl, rfl⟩
    | option inner => exact ⟨[0], .inl ⟨rfl, rfl⟩⟩
    | wrapped _ ih =>
      obtain ⟨p, hp⟩ := ih
      exact ⟨p ++ [], [(_, .null)], ⟨.null, [], p, [], rfl, rfl, hp, rfl, rfl⟩, rfl⟩

/-! ## Variants -/

/-- Whether a codec accepts the values that another one reads, if these tell on their own what they
are of. -/
def overlaps : Codec → Codec → Bool
  | id kind, id kind' => kind == .plain || kind == kind'
  | struct _ _ (.record type) _, struct _ _ (.record type') _ => type == type'
  | struct _ _ (.declared type) _, struct _ _ (.declared type') _ => type == type'
  | struct _ _ .typeSystem _, struct _ _ (.record type) _ => type == "TypeSystem"
  | struct _ _ (.record type) _, struct _ _ .typeSystem _ => type == "TypeSystem"
  | struct _ _ .typeSystem _, struct _ _ .typeSystem _ => true
  | enumeration decl, enumeration decl' => decl' == decl
  | _, _ => false

/-- Values are accepted where the codecs overlap. -/
theorem accepts_eq_overlaps {c d : Codec} (hd : d.discriminated = true) {v : Value} {p : Octets}
    (h : d.Encodes v p) : c.accepts v = c.overlaps d := by
  -- what the value shows is its kind, its record type or its enumeration, which is that of `d`
  cases d with
  | id kind =>
    obtain ⟨x, rfl, -⟩ := h
    cases c with
    | struct name' fields' form' wrapped' => cases form' <;> rfl
    | _ => rfl
  | enumeration decl =>
    obtain ⟨tag, name, t, -, rfl, -⟩ := h
    cases c with
    | struct name' fields' form' wrapped' => cases form' <;> rfl
    | _ => rfl
  | struct name fields form wrapped =>
    obtain ⟨vs, -, hv⟩ := h
    cases form with
    | mapping => cases hd
    | record type =>
      cases hv
      cases c with
      | struct name' fields' form' wrapped' => cases form' <;> rfl
      | _ => rfl
    | declared type =>
      obtain rfl := record_eq_ok hv
      cases c with
      | struct name' fields' form' wrapped' => cases form' <;> rfl
      | _ => rfl
    | typeSystem =>
      obtain ⟨ts, rfl⟩ := exists_toValue_of_value hv
      cases c with
      | struct name' fields' form' wrapped' => cases form' <;> rfl
      | _ => rfl
  | _ => cases hd

/-! ## Canonical form -/

/-- An **unambiguous** codec: what is optional does not read null itself, no variant accepts the
values of a later one, elements of sets and keys of mappings from different encodings do not coincide,
type systems are read from the mapping of their definitions, and members are numbers. -/
def Unambiguous : Codec → Prop
  | option inner => ¬ inner.ReadsNull
  | set item _ .members _ => item.Apart
  | map key _ _ .mapping _ => key.Apart
  | struct name fields .typeSystem wrapped =>
    struct name fields .typeSystem wrapped = TypeSystem.codec
  | union _ variants => variants.Pairwise fun x y => x.2.2.overlaps y.2.2 = false
  | enumeration decl => decl.lacks "__int__" = false
  | _ => True

/-- A checked codec with different names that is unambiguous throughout reencodes. -/
theorem reencodes_of_unambiguous {c : Codec} (hchecked : c.Throughout Checked)
    (hdistinct : c.Throughout Distinct) (hunambiguous : c.Throughout Unambiguous) :
    Reencodes c := by
  induction c using childInduction with | h c ih => ?_
  replace ih : ∀ s ∈ c.children, Reencodes s := fun s hs =>
    ih s hs (hchecked.child hs) (hdistinct.child hs) (hunambiguous.child hs)
  have hself := hunambiguous.self
  cases c with
  | unit => exact reencodes_unit
  | bool => exact reencodes_bool
  | unicode => exact reencodes_unicode
  | uint size => exact reencodes_uint size
  | sint size => exact reencodes_sint size
  | byteArray size => exact reencodes_byteArray size
  | id kind => exact reencodes_id kind
  | bytes b label => exact reencodes_bytes b label
  | ascii first rest b label => exact reencodes_ascii first rest b label
  | enumeration decl => exact reencodes_enumeration hself
  | list item b label => exact reencodes_list (ih item (List.mem_singleton.2 rfl)) b label
  | array item count => exact reencodes_array (ih item (List.mem_singleton.2 rfl)) count
  | set item b form label =>
    refine reencodes_set (ih item (List.mem_singleton.2 rfl)) ?_
    rintro rfl
    exact hself
  | map key value b form label =>
    refine reencodes_map (ih key (List.mem_cons_self ..)) (ih value (by simp [children])) ?_
    rintro rfl
    exact hself
  | option inner =>
    -- a present value is never null, so it is not written as an absent one
    refine reencodes_option (ih inner (List.mem_singleton.2 rfl)) fun p hp => hself ?_
    exact (exists_encodes_null_iff (hchecked.child (List.mem_singleton.2 rfl))).1 ⟨p, hp⟩
  | tuple items => exact reencodes_tuple ih
  | struct name fields form wrapped =>
    by_cases hform : form = .typeSystem
    · subst hform
      rw [show struct name fields .typeSystem wrapped = TypeSystem.codec from hself]
      exact TypeSystem.canonical_codec.reencodes
    · refine reencodes_struct hform ?_ hdistinct.self.1 (List.forall_mem_map.1 ih)
      rintro rfl
      exact hchecked.self
  | union name variants =>
    -- the first variant that accepts a value is the one that it was read for
    refine reencodes_union hdistinct.self.2 ?_ (List.forall_mem_map.1 ih)
    refine List.Pairwise.imp (fun {x y} hxy v p hd hv => ?_) hself
    rw [accepts_eq_overlaps hd hv, hxy]

end StrictContract.Codec
