import Mathlib.Data.List.Induction
import StrictContract.Proofs.Codec.Delimiting
import StrictContract.Proofs.Codec.Failing

/-! # Disorder — sets and maps are read in ascending order only

The entries of a set or a map are read one after another, each in the knowledge of the key before it.
A row of entries that can be read one by one is therefore read as far as its keys ascend, and refused
at the **first descent**: the first entry whose key does not come after the one before it. The error
names the index of that entry and tells an equal key from a smaller one. Whether or not the entries
can be read, a row out of order is never decoded, since encodings tell where they end. -/

namespace StrictContract

/-! ## The first descent -/

namespace Reader

variable {α : Type}

variable {entry : Nat → Option Octets → Reader (Octets × α)} {entries : List (Octets × Octets)}

end Reader

namespace Codec

open Reader

/-- What an **entry** of a set or a map consists of: an element and nothing behind it, or a key and a
value. -/
def EntryOf (P : Codec → Octets → Prop) : Codec → Octets × Octets → Prop
  | set item _ _ _, e => P item e.1 ∧ e.2 = []
  | map key value _ _ _, e => P key e.1 ∧ P value e.2
  | _, _ => False

/-- A **row** of entries: their number, and the entries in the order in which they are given. -/
def row (b : Bounds) (entries : List (Octets × Octets)) : Octets :=
  b.lengthPrefix entries.length ++ (entries.map fun e => e.1 ++ e.2).flatten

theorem EntryOf.mono {P Q : Codec → Octets → Prop} {c : Codec} {e : Octets × Octets}
    (hPQ : ∀ s ∈ c.children, ∀ p, P s p → Q s p) (h : c.EntryOf P e) : c.EntryOf Q e := by
  cases c with
  | set item b form label => exact ⟨hPQ item (List.mem_singleton.2 rfl) _ h.1, h.2⟩
  | map key value b form label =>
    exact ⟨hPQ key (List.mem_cons_self ..) _ h.1, hPQ value (by simp [children]) _ h.2⟩
  | _ => exact h.elim

end Codec

end StrictContract
