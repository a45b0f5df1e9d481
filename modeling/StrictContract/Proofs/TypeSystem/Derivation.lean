import StrictContract.Proofs.TypeSystem.WellFormed
import StrictContract.TypeSystem.Derivation

/-! # Derivation — a growing type system only gains definitions

Whatever is derived, the type system changes by **insertions** only, also when the derivation fails
halfway. So a derivation keeps a system well formed and never changes or loses a definition. -/

namespace StrictContract

namespace TypeSystem.Growth

variable {α β : Type} {ts ts' ts'' : TypeSystem}

/-! ## Insertions -/

/-- A system arises from another one by **insertions**, one after another. -/
inductive Insertions : TypeSystem → TypeSystem → Prop
  | refl (ts : TypeSystem) : Insertions ts ts
  | step {ts ts' ts'' : TypeSystem} {d : Draft} {sid : SemId} (h : ts.insert d = .ok (sid, ts'))
      (hrest : Insertions ts' ts'') : Insertions ts ts''

namespace Insertions

theorem trans (h : Insertions ts ts') (h' : Insertions ts' ts'') : Insertions ts ts'' := by
  induction h with
  | refl => exact h'
  | step hd _ ih => exact .step hd (ih h')

/-- Insertions extend a system. -/
theorem isExtension (h : Insertions ts ts') : ts.Extends ts' := by
  induction h with
  | refl => exact .refl _
  | step hd _ ih => exact (extends_of_insert hd).trans ih

/-- Insertions keep a system well formed. -/
theorem wellFormed (h : Insertions ts ts') (hts : ts.WellFormed) : ts'.WellFormed := by
  induction h with
  | refl => exact hts
  | step hd _ ih => exact ih (hts.insert hd)

end Insertions

/-- A computation that changes a type system by insertions only. -/
def OnlyInserts (m : Growth α) : Prop := ∀ ts, Insertions ts (m ts).2

/-- Nothing but a result is no insertion. -/
theorem onlyInserts_pure (a : α) : OnlyInserts (pure a) := fun ts => .refl ts

/-- Steps that only insert make a computation that only inserts. -/
theorem OnlyInserts.bind {m : Growth α} {f : α → Growth β} (hm : OnlyInserts m)
    (hf : ∀ a, OnlyInserts (f a)) : OnlyInserts (m >>= f) := by
  intro ts
  have hfirst := hm ts
  rw [bind_apply]
  rcases hts : m ts with ⟨_ | a, ts'⟩ <;> rw [hts] at hfirst
  · exact hfirst
  · exact hfirst.trans (hf a ts')

/-- An insertion inserts, or leaves the system as it was. -/
theorem onlyInserts_insert (d : Draft) : OnlyInserts (insert d) := by
  intro ts
  unfold insert
  cases h : ts.insert d with
  | ok x => exact .step h (.refl _)
  | error e => exact .refl ts

/-- An insertion that fails leaves the system as it was. -/
theorem insert_of_error {d : Draft} {e : Failure} (h : (insert d ts).1 = .error e) :
    (insert d ts).2 = ts := by
  unfold insert at h ⊢
  cases hd : ts.insert d with
  | ok x =>
    rw [hd] at h
    cases h
  | error e' => rfl

/-- Strings are defined by insertions. -/
theorem onlyInserts_defineText (first rest : Charset) (b : Bounds) :
    OnlyInserts (defineText first rest b) := by
  refine (onlyInserts_insert _).bind fun restId => ?_
  split
  · refine (onlyInserts_insert _).bind fun firstId => ?_
    exact (onlyInserts_insert _).bind fun tailId => onlyInserts_insert _
  · exact onlyInserts_insert _

/-- Byte strings of one length are defined by insertions. -/
theorem onlyInserts_defineOctets (size : Nat) : OnlyInserts (defineOctets size) :=
  (onlyInserts_insert _).bind fun _ => onlyInserts_insert _

end TypeSystem.Growth

namespace Codec

open TypeSystem.Growth

attribute [local simp] derive deriveItems deriveFields deriveVariants

mutual

/-- Deriving the definition of a codec only inserts. -/
theorem onlyInserts_derive : (c : Codec) → OnlyInserts c.derive
  | unit | bool | unicode | uint _ | sint _ => by
    rw [derive]
    exact onlyInserts_insert _
  | byteArray size => by
    rw [derive]
    exact onlyInserts_defineOctets size
  | id _ => by
    rw [derive]
    exact onlyInserts_defineOctets 32
  | bytes b _ => by
    rw [derive]
    exact (onlyInserts_insert _).bind fun _ => onlyInserts_insert _
  | ascii first rest b _ => by
    rw [derive]
    exact onlyInserts_defineText first rest b
  | list item b _ | set item b _ _ => by
    rw [derive]
    exact (onlyInserts_derive item).bind fun _ => onlyInserts_insert _
  | map key value b _ _ => by
    rw [derive]
    refine (onlyInserts_derive key).bind fun _ => ?_
    exact (onlyInserts_derive value).bind fun _ => onlyInserts_insert _
  | array item count => by
    rw [derive]
    exact (onlyInserts_derive item).bind fun _ => onlyInserts_insert _
  | option inner => by
    rw [derive]
    refine (onlyInserts_insert _).bind fun _ => ?_
    exact (onlyInserts_derive inner).bind fun _ => onlyInserts_insert _
  | tuple items => by
    rw [derive]
    exact (onlyInserts_deriveItems items).bind fun _ => onlyInserts_insert _
  | struct _ [] _ _ => by
    rw [derive]
    exact onlyInserts_insert _
  | struct _ ((name, c) :: rest) form true => by
    rw [derive]
    exact onlyInserts_derive c
  | struct _ ((name, c) :: rest) form false => by
    rw [derive]
    · exact (onlyInserts_deriveFields ((name, c) :: rest)).bind fun _ => onlyInserts_insert _
    · nofun
  | union _ variants => by
    rw [derive]
    exact (onlyInserts_deriveVariants variants).bind fun _ => onlyInserts_insert _
  | enumeration decl => by
    rw [derive]
    exact onlyInserts_insert _

/-- Deriving codecs in order only inserts. -/
theorem onlyInserts_deriveItems : (items : List Codec) → OnlyInserts (deriveItems items)
  | [] => by
    rw [deriveItems]
    exact onlyInserts_pure _
  | c :: rest => by
    rw [deriveItems]
    refine (onlyInserts_derive c).bind fun _ => ?_
    exact (onlyInserts_deriveItems rest).bind fun _ => onlyInserts_pure _

/-- Deriving the codecs of fields only inserts. -/
theorem onlyInserts_deriveFields :
    (fields : List (String × Codec)) → OnlyInserts (deriveFields fields)
  | [] => by
    rw [deriveFields]
    exact onlyInserts_pure _
  | (_, c) :: rest => by
    rw [deriveFields]
    refine (onlyInserts_derive c).bind fun _ => ?_
    exact (onlyInserts_deriveFields rest).bind fun _ => onlyInserts_pure _

/-- Deriving the codecs of variants only inserts. -/
theorem onlyInserts_deriveVariants :
    (variants : List (Nat × String × Codec)) → OnlyInserts (deriveVariants variants)
  | [] => by
    rw [deriveVariants]
    exact onlyInserts_pure _
  | (_, _, c) :: rest => by
    rw [deriveVariants]
    refine (onlyInserts_derive c).bind fun _ => ?_
    exact (onlyInserts_deriveVariants rest).bind fun _ => onlyInserts_pure _

end

end Codec

end StrictContract
