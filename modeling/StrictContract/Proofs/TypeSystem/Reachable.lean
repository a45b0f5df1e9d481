import Mathlib.Algebra.Group.Nat.Defs
import StrictContract.Proofs.TypeSystem.Derivation
import StrictContract.Proofs.TypeSystem.Encoding

/-! # Reachable type systems — what holds after any run of operations

A type system is **reachable** if it arises from the empty one by inserting, deriving, merging,
extracting, loading and decoding, where an insertion or a derivation may also have failed. Every
operation keeps a system well formed, so every reachable system is. -/

namespace StrictContract.TypeSystem

/-- A **reachable** type system. -/
inductive Reachable : TypeSystem → Prop
  | empty : Reachable empty
  /-- The system after an insertion, whether it succeeded or not. -/
  | insert {ts : TypeSystem} (d : Draft) (h : Reachable ts) : Reachable (Growth.insert d ts).2
  /-- The system after a derivation, whether it succeeded or not. -/
  | derive {ts : TypeSystem} (c : Codec) (h : Reachable ts) : Reachable (c.derive ts).2
  | merge {ts other ts' : TypeSystem} {added : Nat} (h : Reachable ts) (hother : Reachable other)
      (hmerge : Growth.merge other ts = (.ok added, ts')) : Reachable ts'
  | extract {ts ts' : TypeSystem} {roots : List SemId} (h : Reachable ts)
      (hextract : ts.extract roots = .ok ts') : Reachable ts'
  /-- The system loaded from a mapping, of which the keys are all different. -/
  | load {drafts : List (SemId × Draft)} {ts : TypeSystem} (hnodup : (drafts.map Prod.fst).Nodup)
      (hload : load drafts = .ok ts) : Reachable ts
  | decode {octets : Octets} {ts : TypeSystem} (hdecode : decode octets = .ok ts) : Reachable ts

/-- Every reachable type system is well formed. -/
theorem Reachable.wellFormed {ts : TypeSystem} (h : Reachable ts) : ts.WellFormed := by
  induction h with
  | empty => exact wellFormed_empty
  | insert d _ ih => exact (Growth.onlyInserts_insert d _).wellFormed ih
  | derive c _ ih => exact (c.onlyInserts_derive _).wellFormed ih
  | merge _ _ hmerge ih ihother => exact ih.merge ihother hmerge
  | extract _ hextract _ => exact wellFormed_of_extract hextract
  | load hnodup hload => exact wellFormed_of_load hnodup hload
  | decode hdecode => exact wellFormed_of_decode hdecode

/-- In a reachable type system every definition is valid and encodable, stands under its own id and
refers to definitions of the system only, and their number is within the capacity. A failed
insertion changes nothing, insertions and derivations keep every definition, and the system is
decoded from its own bytes. -/
theorem reachable_laws {ts : TypeSystem} (h : Reachable ts) :
    (ts.entries.map Prod.fst).Nodup ∧
      (∀ e ∈ ts.entries, e.2.toDraft.semId = .ok e.1 ∧ e.2.toDraft.validate = .ok () ∧
        (∃ p, e.2.toDraft.encode = .ok p) ∧
        ∀ ref ∈ e.2.references, ref ∈ ts.entries.map Prod.fst) ∧
      ts.size ≤ 2 ^ 24 - 1 ∧
      (∀ d e, (Growth.insert d ts).1 = .error e → (Growth.insert d ts).2 = ts) ∧
      (∀ sid known, ts.get? sid = some known → ∀ d, (Growth.insert d ts).2.get? sid = some known) ∧
      (∀ sid known, ts.get? sid = some known →
        ∀ c : Codec, (c.derive ts).2.get? sid = some known) ∧
      ∃ octets ts', ts.encode = .ok octets ∧ decode octets = .ok ts' ∧ ts.same ts' = true := by
  have hts := h.wellFormed
  obtain ⟨octets, hencode, hdecode⟩ := hts.exists_decode
  refine ⟨hts.nodup, fun e he => ?_, hts.small, fun d e => Growth.insert_of_error, ?_, ?_, octets,
    ts.sorted, hencode, hdecode, hts.same_of_perm ts.entries_sorted_perm⟩
  · exact ⟨hts.named e he, hts.valid e he, hts.encodes he,
      fun ref href => contains_iff.1 (hts.closed e he ref href)⟩
  · intro sid known hknown d
    exact (Growth.onlyInserts_insert d ts).isExtension.get?_eq_some hknown
  · intro sid known hknown c
    exact (c.onlyInserts_derive ts).isExtension.get?_eq_some hknown

/-- The system of optional booleans is decoded from its own bytes. -/
theorem reachable_laws_option :
    ∃ octets ts', encode ((Codec.option .bool).derive empty).2 = .ok octets ∧
      decode octets = .ok ts' ∧ same ((Codec.option .bool).derive empty).2 ts' = true := by
  obtain ⟨-, -, -, -, -, -, hdecode⟩ := reachable_laws (.derive (.option .bool) .empty)
  exact hdecode

end StrictContract.TypeSystem
