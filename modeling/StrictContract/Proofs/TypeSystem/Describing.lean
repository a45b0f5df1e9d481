import StrictContract.Proofs.TypeSystem.WellFormed
import StrictContract.TypeSystem.Describing

/-! # Describing — the codec of an id does not depend on how far one looks

What is described with some fuel is described alike with more fuel and with more definitions. As many
rounds as there are definitions suffice: as long as a round describes something new, the number of
described definitions grows. So two type systems that have the same definitions under the ids that
they share describe these ids alike. -/

namespace StrictContract.TypeSystem

variable {u w : TypeSystem} {sid : SemId}

/-- A type system whose definitions another one has, too. -/
def Below (u w : TypeSystem) : Prop := ∀ sid d, u.get? sid = some d → w.get? sid = some d

theorem Below.refl (u : TypeSystem) : u.Below u := fun _ _ h => h

/-- A definition is found when it is there. -/
theorem find_eq_ok {d : TypeDef} : u.find sid = .ok d ↔ u.get? sid = some d := by
  unfold find
  cases u.get? sid with
  | none => simp
  | some e => simp

theorem Below.find (h : u.Below w) {d : TypeDef} (hd : u.find sid = .ok d) : w.find sid = .ok d :=
  find_eq_ok.2 (h sid d (find_eq_ok.1 hd))

theorem Below.isByte (h : u.Below w) {b : Bool} (hb : u.isByte sid = .ok b) :
    w.isByte sid = .ok b := by
  obtain ⟨d, hd, hb⟩ := bind_eq_ok.1 hb
  exact bind_eq_ok.2 ⟨d, h.find hd, hb⟩

theorem Below.splitText? (h : u.Below w) {fields : List (String × SemId)} {c : Option Codec}
    (hc : u.splitText? fields = .ok c) : w.splitText? fields = .ok c := by
  unfold TypeSystem.splitText? at hc ⊢
  split at hc
  · obtain ⟨tail, htail, hc⟩ := bind_eq_ok.1 hc
    exact bind_eq_ok.2 ⟨tail, h.find htail, hc⟩
  · exact hc

/-- A loop whose rounds give their results again gives its result again. -/
theorem mapM_mono {α β : Type} {f g : α → Except Failure β}
    (h : ∀ a b, f a = .ok b → g a = .ok b) {xs : List α} {ys : List β}
    (hxs : xs.mapM f = .ok ys) : xs.mapM g = .ok ys := by
  obtain ⟨ps, rfl, rfl, hps⟩ := mapM_eq_ok.1 hxs
  exact mapM_eq_ok.2 ⟨ps, rfl, rfl, fun q hq => h _ _ (hps q hq)⟩

/-- What is described is described alike with more definitions and more parts. -/
theorem describeBy_mono (hle : u.Below w) {f g : SemId → Except Failure Codec}
    (hpart : ∀ ref C, f ref = .ok C → g ref = .ok C) {D : Codec} (h : u.describeBy f sid = .ok D) :
    w.describeBy g sid = .ok D := by
  unfold describeBy at h ⊢
  obtain ⟨d, hd, h⟩ := bind_eq_ok.1 h
  refine bind_eq_ok.2 ⟨d, hle.find hd, ?_⟩
  cases d with
  | primitive width => exact h
  | unicode => exact h
  | enumeration members => exact h
  | union variants =>
    obtain ⟨xs, hxs, h⟩ := bind_eq_ok.1 h
    refine bind_eq_ok.2 ⟨xs, mapM_mono (fun x y hx => ?_) hxs, h⟩
    obtain ⟨C, hC, hx⟩ := bind_eq_ok.1 hx
    exact bind_eq_ok.2 ⟨C, hpart _ C hC, hx⟩
  | tuple items =>
    obtain ⟨xs, hxs, h⟩ := bind_eq_ok.1 h
    exact bind_eq_ok.2 ⟨xs, mapM_mono hpart hxs, h⟩
  | struct fields =>
    obtain ⟨split?, hsplit, h⟩ := bind_eq_ok.1 h
    refine bind_eq_ok.2 ⟨split?, hle.splitText? hsplit, ?_⟩
    cases split? with
    | some c => exact h
    | none =>
      obtain ⟨xs, hxs, h⟩ := bind_eq_ok.1 h
      refine bind_eq_ok.2 ⟨xs, mapM_mono (fun x y hx => ?_) hxs, h⟩
      obtain ⟨C, hC, hx⟩ := bind_eq_ok.1 hx
      exact bind_eq_ok.2 ⟨C, hpart _ C hC, hx⟩
  | array item length =>
    obtain ⟨b, hb, h⟩ := bind_eq_ok.1 h
    refine bind_eq_ok.2 ⟨b, hle.isByte hb, ?_⟩
    cases b with
    | true => exact h
    | false =>
      obtain ⟨C, hC, h⟩ := bind_eq_ok.1 h
      exact bind_eq_ok.2 ⟨C, hpart _ C hC, h⟩
  | list item min max =>
    dsimp only at h ⊢
    split at h
    · exact h
    · obtain ⟨b, hb, h⟩ := bind_eq_ok.1 h
      refine bind_eq_ok.2 ⟨b, hle.isByte hb, ?_⟩
      cases b with
      | true => exact h
      | false =>
        obtain ⟨C, hC, h⟩ := bind_eq_ok.1 h
        exact bind_eq_ok.2 ⟨C, hpart _ C hC, h⟩
  | set item min max =>
    obtain ⟨C, hC, h⟩ := bind_eq_ok.1 h
    exact bind_eq_ok.2 ⟨C, hpart _ C hC, h⟩
  | map key value min max =>
    obtain ⟨K, hK, h⟩ := bind_eq_ok.1 h
    obtain ⟨V, hV, h⟩ := bind_eq_ok.1 h
    exact bind_eq_ok.2 ⟨K, hpart _ K hK, bind_eq_ok.2 ⟨V, hpart _ V hV, h⟩⟩

/-- What is described is described alike with more definitions and more fuel. -/
theorem describe_mono (hle : u.Below w) {n m : Nat} (hnm : n ≤ m) {D : Codec}
    (h : u.describe n sid = .ok D) : w.describe m sid = .ok D := by
  induction n generalizing m sid D with
  | zero => cases h
  | succ n ih =>
    obtain ⟨m, rfl⟩ := Nat.exists_eq_add_one.2 (Nat.zero_lt_of_lt hnm)
    exact describeBy_mono hle (fun ref C hC => ih (Nat.le_of_succ_le_succ hnm) hC) h

/-! ## How many rounds it takes -/

/-- One more round describes nothing new. -/
def Settled (u : TypeSystem) (n : Nat) : Prop :=
  ∀ sid D, u.describe (n + 1) sid = .ok D → u.describe n sid = .ok D

/-- When one round describes nothing new, no later one does. -/
theorem Settled.describe {n : Nat} (hn : u.Settled n) (m : Nat) {D : Codec}
    (h : u.describe m sid = .ok D) : u.describe n sid = .ok D := by
  induction m generalizing sid D with
  | zero => cases h
  | succ m ih => exact hn sid D (describeBy_mono (.refl u) (fun ref C hC => ih hC) h)

/-- The number of entries that are described. -/
def described (u : TypeSystem) (n : Nat) : Nat :=
  u.entries.countP fun e => (u.describe n e.1).isOk

/-- A condition that holds of more items holds of more of them. -/
theorem countP_lt_countP {α : Type} {p q : α → Bool} {xs : List α}
    (h : ∀ x ∈ xs, p x = true → q x = true) {a : α} (ha : a ∈ xs) (hq : q a = true)
    (hp : p a = false) : xs.countP p < xs.countP q := by
  induction xs with
  | nil => cases ha
  | cons x xs ih =>
    rw [List.forall_mem_cons] at h
    rw [List.countP_cons, List.countP_cons]
    have hle := List.countP_mono_left h.2
    rcases List.mem_cons.1 ha with rfl | ha
    · rw [hp, hq]
      simp
      omega
    · have hlt := ih h.2 ha
      by_cases hx : p x = true
      · rw [hx, h.1 hx]
        omega
      · rw [if_neg hx]
        omega

/-- A round that describes something new describes more entries. -/
theorem described_lt {n : Nat} (hn : ¬ u.Settled n) : u.described n < u.described (n + 1) := by
  have hnew : ∃ sid D, u.describe (n + 1) sid = .ok D ∧ u.describe n sid ≠ .ok D := by
    simpa [Settled] using hn
  obtain ⟨sid, D, hD, hne⟩ := hnew
  have hmore : ∀ {sid : SemId} {C : Codec}, u.describe n sid = .ok C →
      u.describe (n + 1) sid = .ok C := describe_mono (.refl u) (Nat.le_succ n)
  obtain ⟨d, hd, -⟩ := bind_eq_ok.1 hD
  have hmem : (sid, d) ∈ u.entries := mem_of_lookup (find_eq_ok.1 hd)
  refine countP_lt_countP (fun e _ he => ?_) hmem ?_ ?_
  · cases hC : u.describe n e.1 with
    | ok C => rw [hmore hC]; rfl
    | error f =>
      rw [hC] at he
      cases he
  · dsimp only
    rw [hD]
    rfl
  · cases hC : u.describe n sid with
    | ok C =>
      have hCD := (hmore hC).symm.trans hD
      cases hCD
      exact absurd hC hne
    | error f => rfl

/-- As many rounds as there are definitions describe everything that is ever described. -/
theorem exists_settled (u : TypeSystem) : ∃ n, n ≤ u.size ∧ u.Settled n := by
  -- until it is settled, each round describes at least one more of the entries
  have hgrows : ∀ n, (∃ k, k < n ∧ u.Settled k) ∨ n ≤ u.described n := by
    intro n
    induction n with
    | zero => exact .inr (Nat.zero_le _)
    | succ n ih =>
      by_cases hn : u.Settled n
      · exact .inl ⟨n, Nat.lt_succ_self n, hn⟩
      · rcases ih with ⟨k, hk, hsettled⟩ | hle
        · exact .inl ⟨k, Nat.lt_succ_of_lt hk, hsettled⟩
        · exact .inr (Nat.lt_of_le_of_lt hle (described_lt hn))
  rcases hgrows (u.size + 1) with ⟨k, hk, hsettled⟩ | hle
  · exact ⟨k, Nat.le_of_lt_succ hk, hsettled⟩
  · have hcount : u.described (u.size + 1) ≤ u.size := List.countP_le_length
    omega

/-- The codec of an id is the one that is described with any fuel. -/
theorem codecOf_eq_ok {D : Codec} : u.codecOf sid = .ok D ↔ ∃ n, u.describe n sid = .ok D := by
  constructor
  · exact fun h => ⟨_, h⟩
  · rintro ⟨n, h⟩
    obtain ⟨k, hk, hsettled⟩ := u.exists_settled
    exact describe_mono (.refl u) (Nat.le_succ_of_le hk) (hsettled.describe n h)

/-- The codec of an id is described from the codecs of the ids that it refers to. -/
theorem codecOf_eq_ok_iff_describeBy {D : Codec} :
    u.codecOf sid = .ok D ↔ u.describeBy u.codecOf sid = .ok D := by
  constructor
  · intro h
    exact describeBy_mono (.refl u) (fun ref C hC => codecOf_eq_ok.2 ⟨_, hC⟩) h
  · intro h
    exact codecOf_eq_ok.2 ⟨u.size + 2, h⟩

/-- The definitions of two type systems together, those of the first one before the others. -/
def append (u w : TypeSystem) : TypeSystem := ⟨u.entries ++ w.entries⟩

/-- The first type system is below both together. -/
theorem below_append_left (u w : TypeSystem) : u.Below (u.append w) := by
  intro sid d hd
  rw [append, get?, List.lookup_append, show u.entries.lookup sid = some d from hd]
  rfl

/-- The second type system is below both together, if they have the same definitions under the ids
that they share. -/
theorem below_append_right
    (hagree : ∀ sid d e, u.get? sid = some d → w.get? sid = some e → d = e) :
    w.Below (u.append w) := by
  intro sid d hd
  rw [append, get?, List.lookup_append]
  cases he : u.entries.lookup sid with
  | none => exact hd
  | some e => exact congrArg some (hagree sid e d he hd)

/-- Type systems with the same definitions under the ids that they share describe an id alike. -/
theorem codecOf_unique (hagree : ∀ sid d e, u.get? sid = some d → w.get? sid = some e → d = e)
    {C D : Codec} (hC : u.codecOf sid = .ok C) (hD : w.codecOf sid = .ok D) : C = D := by
  -- both codecs are described in the system of all definitions, with the fuel that either needs
  have hfuel := Nat.le_max_left (u.size + 1) (w.size + 1)
  have hfuel' := Nat.le_max_right (u.size + 1) (w.size + 1)
  have hC' := describe_mono (below_append_left u w) hfuel hC
  have hD' := describe_mono (below_append_right hagree) hfuel' hD
  exact Except.ok.inj (hC'.symm.trans hD')

end StrictContract.TypeSystem
