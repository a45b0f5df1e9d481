import StrictContract.Proofs.TypeSystem.Canonical
import StrictContract.Proofs.TypeSystem.Founded

/-! # Strict checks — every byte string is answered for every id

Whether an id has a codec or not, a well-formed system tells so with a strict error at most, and the
codecs that it describes read strictly. So the check of a byte string against an id gives a value or
a strict error. -/

namespace StrictContract

variable {α β : Type}

/-- A computation of two steps is strict if the first one is, and the second one after whatever the
first one gives. -/
theorem IsStrict.bind {x : Except Failure α} {f : α → Except Failure β} (hx : IsStrict x)
    (hf : ∀ a, x = .ok a → IsStrict (f a)) : IsStrict (x >>= f) := by
  cases x with
  | ok a => exact hf a rfl
  | error e =>
    rintro _ ⟨⟩
    exact hx e rfl

/-- What gives a result is strict. -/
theorem isStrict_of_exists {x : Except Failure α} (h : ∃ a, x = .ok a) : IsStrict x := by
  obtain ⟨a, rfl⟩ := h
  exact isStrict_ok a

/-- A loop of strict rounds is strict. -/
theorem isStrict_mapM {f : α → Except Failure β} {xs : List α} (h : ∀ x ∈ xs, IsStrict (f x)) :
    IsStrict (xs.mapM f) := by
  induction xs with
  | nil => exact isStrict_ok _
  | cons x xs ih =>
    rw [List.forall_mem_cons] at h
    rw [List.mapM_cons]
    exact h.1.bind fun _ _ => (ih h.2).bind fun _ _ => isStrict_ok _

namespace TypeSystem

variable {ts : TypeSystem}

/-- Looking a definition up is strict. -/
theorem isStrict_find (ts : TypeSystem) (sid : SemId) : IsStrict (ts.find sid) := by
  unfold find
  split
  · exact isStrict_ok _
  · exact isStrict_fail _

/-- A definition of a well-formed system is described strictly when what it refers to is. -/
theorem WellFormed.isStrict_describeBy (h : ts.WellFormed) {part : SemId → Except Failure Codec}
    (hpart : ∀ ref, IsStrict (part ref)) (sid : SemId) : IsStrict (ts.describeBy part sid) := by
  refine (ts.isStrict_find sid).bind fun d hd => ?_
  rw [find_eq_ok] at hd
  have hsound := h.sound hd
  have hclosed := h.closed _ (h.get?_eq_some.1 hd)
  -- arrays and lists of bytes have codecs of their own, so the item is looked up first
  have hbyte : ∀ item ∈ d.references, IsStrict (ts.isByte item) := fun item hitem =>
    isStrict_of_exists (exists_isByte (hclosed item hitem))
  cases d with
  | primitive width | unicode | enumeration members => exact isStrict_ok _
  | union variants =>
    exact (isStrict_mapM fun x _ => (hpart x.2.2).bind fun _ _ => isStrict_ok _).bind
      fun _ _ => isStrict_ok _
  | tuple items => exact (isStrict_mapM fun ref _ => hpart ref).bind fun _ _ => isStrict_ok _
  | struct fields =>
    refine (isStrict_of_exists (h.exists_splitText? hclosed)).bind fun split? _ => ?_
    cases split? with
    | some c => exact isStrict_ok _
    | none =>
      exact (isStrict_mapM fun f _ => (hpart f.2).bind fun _ _ => isStrict_ok _).bind
        fun _ _ => isStrict_ok _
  | array item length =>
    refine (hbyte item (List.mem_singleton.2 rfl)).bind fun b _ => ?_
    cases b with
    | true => exact isStrict_ok _
    | false => exact (hpart item).bind fun _ _ => isStrict_ok _
  | list item min max =>
    have hbounds := isStrict_of_exists (Bounds.exists_of? hsound)
    dsimp only
    split
    · exact hbounds.bind fun _ _ => isStrict_ok _
    · refine (hbyte item (List.mem_singleton.2 rfl)).bind fun b _ => ?_
      cases b with
      | true => exact hbounds.bind fun _ _ => isStrict_ok _
      | false => exact (hpart item).bind fun _ _ => hbounds.bind fun _ _ => isStrict_ok _
  | set item min max =>
    have hbounds := isStrict_of_exists (Bounds.exists_of? hsound)
    exact (hpart item).bind fun _ _ => hbounds.bind fun _ _ => isStrict_ok _
  | map key value min max =>
    have hbounds := isStrict_of_exists (Bounds.exists_of? hsound)
    exact (hpart key).bind fun _ _ => (hpart value).bind fun _ _ => hbounds.bind
      fun _ _ => isStrict_ok _

/-- A well-formed system describes every id strictly. -/
theorem WellFormed.isStrict_codecOf (h : ts.WellFormed) (sid : SemId) : IsStrict (ts.codecOf sid) := by
  have hdescribe : ∀ n sid, IsStrict (ts.describe n sid) := by
    intro n
    induction n with
    | zero => exact fun sid => isStrict_fail _
    | succ n ih => exact fun sid => h.isStrict_describeBy ih sid
  exact hdescribe _ sid

/-- The codecs that a well-formed system describes decode strictly. -/
theorem WellFormed.isStrict_decode (h : ts.WellFormed) {sid : SemId} {D : Codec}
    (hD : ts.codecOf sid = .ok D) (octets : Octets) : IsStrict (D.decode octets) :=
  (Codec.strict_read (Codec.steady_of_regular (h.regular hD))).exactly octets

end TypeSystem

end StrictContract
