import StrictContract.Codec.Write

/-! # Parts — the codecs that a codec is made of

A codec is made of its **children**; a **part** of it is the codec itself or a part of a child.
Conditions on codecs are stated for single codecs and hold **throughout** a codec when they hold of
all its parts. Every property of codecs can be proved from the children up. -/

namespace StrictContract.Codec

/-- The codecs that a codec is directly made of. -/
def children : Codec → List Codec
  | list item _ _ => [item]
  | set item _ _ _ => [item]
  | map key value _ _ _ => [key, value]
  | array item _ => [item]
  | option inner => [inner]
  | tuple items => items
  | struct _ fields _ _ => fields.map Prod.snd
  | union _ variants => variants.map fun x => x.2.2
  | _ => []

/-- Children are smaller. -/
theorem sizeOf_lt_of_mem_children {s c : Codec} (h : s ∈ c.children) : sizeOf s < sizeOf c := by
  cases c <;>
    simp only [children, List.mem_cons, List.not_mem_nil, or_false, List.mem_map] at h
  case list | set | array | option => subst h; simp <;> omega
  case map => rcases h with rfl | rfl <;> simp <;> omega
  case tuple =>
    have := List.sizeOf_lt_of_mem h
    simp
    omega
  case struct =>
    obtain ⟨⟨name, s⟩, hmem, rfl⟩ := h
    have := List.sizeOf_lt_of_mem hmem
    simp at this ⊢
    omega
  case union =>
    obtain ⟨⟨tag, name, s⟩, hmem, rfl⟩ := h
    have := List.sizeOf_lt_of_mem hmem
    simp at this ⊢
    omega

/-- To prove a property of a codec, it may be assumed of the children. -/
theorem childInduction {P : Codec → Prop} (h : ∀ c : Codec, (∀ s ∈ c.children, P s) → P c)
    (c : Codec) : P c :=
  h c fun s hs =>
    have := sizeOf_lt_of_mem_children hs
    childInduction h s
termination_by sizeOf c

/-- A **part** of a codec: the codec itself or a part of a child. -/
inductive PartOf (s : Codec) : Codec → Prop
  | refl : PartOf s s
  | step {child c : Codec} (hchild : child ∈ c.children) (h : PartOf s child) : PartOf s c

/-- Parts of parts are parts. -/
theorem PartOf.trans {s t c : Codec} (h : PartOf s t) (h' : PartOf t c) : PartOf s c := by
  induction h' with
  | refl => exact h
  | step hchild _ ih => exact .step hchild ih

/-- A condition that holds **throughout** a codec holds of all its parts. -/
def Throughout (P : Codec → Prop) (c : Codec) : Prop := ∀ s, PartOf s c → P s

namespace Throughout

variable {P Q : Codec → Prop} {c s : Codec}

/-- The codec is a part of itself. -/
theorem self (h : Throughout P c) : P c := h c .refl

/-- Parts of a child are parts. -/
theorem child (h : Throughout P c) (hs : s ∈ c.children) : Throughout P s :=
  fun t ht => h t (.step hs ht)

/-- A condition holds throughout a codec of which the children have it throughout. -/
theorem mk (hself : P c) (hchildren : ∀ s ∈ c.children, Throughout P s) : Throughout P c := by
  intro t ht
  cases ht with
  | refl => exact hself
  | step hs ht => exact hchildren _ hs t ht

/-- Scalars are made of nothing else. -/
theorem scalar (h : P c) (hc : c.children = []) : Throughout P c :=
  .mk h (by rw [hc]; nofun)

end Throughout

/-- What the constructors of codecs check: wrapped structs have one field, the tags of unions ascend
in one byte, and so do those of enumerations. -/
def Checked : Codec → Prop
  | struct _ fields _ true => fields.length = 1
  | union _ variants => (∀ x ∈ variants, x.1 < 256) ∧ variants.Pairwise fun x y => x.1 < y.1
  | enumeration decl => ∀ x ∈ decl.names, x.2 < 256
  | _ => True

end StrictContract.Codec
