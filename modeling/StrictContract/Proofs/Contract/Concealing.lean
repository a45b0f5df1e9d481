import Mathlib.Data.List.Induction
import StrictContract.Proofs.Contract.Binding
import StrictContract.Proofs.Contract.Keeping
import StrictContract.Proofs.Contract.Matching

/-! # Concealing — the seals that a wallet finds again

A wallet **registers** a seal with a call that adds the seal to its stash and returns. The stash keeps
one of the registered seals that are the same, whatever other calls do to its records. The seal behind
a commitment is found by concealing the kept seals one after another, and they are listed by their
commitments. So every lookup is answered, and the list is, if there is a commitment to each seal that
is kept; a single one without a commitment spoils the lookups of all other seals. -/

namespace StrictContract

open Codec

/-! ## Commitments to seals -/

namespace Seal

variable {x y : Seal}

/-- A seal is **concealable** when there is a commitment to it. -/
def Concealable (x : Seal) : Prop := ∃ id, x.conceal = .ok id

/-- A commitment to a seal is one to its bytes. -/
theorem conceal_eq_ok {id : SecretSeal} :
    x.conceal = .ok id ↔ ∃ p, codec.write x.toValue = .ok p ∧ Id.ofContent .secretSeal p = id := by
  simp only [conceal, bind_eq_ok, pure_eq_ok]

/-- The bytes of a seal are those of its transaction, its output and its blinding. -/
theorem write_eq_ok {p : Octets} : codec.write x.toValue = .ok p ↔
    ∃ transaction, (Codec.option (.id .transaction)).write
        (.ofOption (.id .transaction) x.transaction) = .ok transaction ∧
      ∃ vout, (uint 4).write x.vout = .ok vout ∧
        ∃ blinding, (uint 8).write x.blinding = .ok blinding ∧
          transaction ++ (vout ++ blinding) = p := by
  simp [codec, toValue, write_record, writeFields, Value.field, Value.feature?, List.lookup_cons,
    bind_eq_ok, ok_bind]

/-- A seal is concealable exactly if its output and its blinding are written as integers: the
transaction always is written. -/
theorem concealable_iff :
    x.Concealable ↔ (uint 4).Written x.vout ∧ (uint 8).Written x.blinding := by
  have htransaction :
      (Codec.option (.id .transaction)).Written (.ofOption (.id .transaction) x.transaction) := by
    cases x.transaction with
    | none => exact ⟨[0], by rw [Value.ofOption, write]⟩
    | some txid =>
      refine ⟨1 :: txid.octets, ?_⟩
      rw [Value.ofOption, write, write_id]
      · rfl
      · intro h
        cases h
  have hwritten : codec.Written x.toValue ↔
      (uint 4).Written x.vout ∧ (uint 8).Written x.blinding ∧ True :=
    (written_record_iff (by decide) rfl).trans (and_iff_right htransaction)
  rw [and_true] at hwritten
  rw [← hwritten]
  constructor
  · rintro ⟨i, hi⟩
    obtain ⟨p, hp, -⟩ := conceal_eq_ok.1 hi
    exact ⟨p, hp⟩
  · rintro ⟨p, hp⟩
    exact ⟨_, conceal_eq_ok.2 ⟨p, hp, rfl⟩⟩

/-- The seals that are the same as a seal with numbers are those in the same transaction with these
numbers. -/
theorem same_iff {m n : Int} (hvout : x.vout.number? = some m)
    (hblinding : x.blinding.number? = some n) : x.same y = true ↔
      x.transaction = y.transaction ∧ y.vout.number? = some m ∧ y.blinding.number? = some n := by
  rw [same, Bool.and_eq_true, Bool.and_eq_true, beq_iff_eq, Value.same_iff_of_number? hvout,
    Value.same_iff_of_number? hblinding, and_assoc]

/-- The output and the blinding of a concealable seal stand for numbers. -/
theorem Concealable.exists_numbers (h : x.Concealable) :
    ∃ m n : Int, x.vout.number? = some m ∧ x.blinding.number? = some n := by
  obtain ⟨⟨_, hvout⟩, ⟨_, hblinding⟩⟩ := concealable_iff.1 h
  obtain ⟨m, hm, -⟩ := exists_number?_of_write_uint hvout
  obtain ⟨n, hn, -⟩ := exists_number?_of_write_uint hblinding
  exact ⟨m, n, hm, hn⟩

/-- What a concealable seal is the same as is the same as it. -/
theorem Concealable.same_symm (hx : x.Concealable) (h : x.same y = true) : y.same x = true := by
  obtain ⟨m, n, hm, hn⟩ := hx.exists_numbers
  obtain ⟨htransaction, hm', hn'⟩ := (same_iff hm hn).1 h
  exact (same_iff hm' hn').2 ⟨htransaction.symm, hm, hn⟩

/-- Concealable seals that are the same have the same commitment. -/
theorem conceal_eq_of_same (h : x.same y = true) {i j : SecretSeal} (hi : x.conceal = .ok i)
    (hj : y.conceal = .ok j) : i = j := by
  obtain ⟨_, hp, rfl⟩ := conceal_eq_ok.1 hi
  obtain ⟨_, hq, rfl⟩ := conceal_eq_ok.1 hj
  obtain ⟨t, ht, _, hvout, _, hblinding, rfl⟩ := write_eq_ok.1 hp
  obtain ⟨t', ht', _, hvout', _, hblinding', rfl⟩ := write_eq_ok.1 hq
  obtain ⟨m, hm, -, rfl⟩ := exists_number?_of_write_uint hvout
  obtain ⟨n, hn, -, rfl⟩ := exists_number?_of_write_uint hblinding
  obtain ⟨m', hm', -, rfl⟩ := exists_number?_of_write_uint hvout'
  obtain ⟨n', hn', -, rfl⟩ := exists_number?_of_write_uint hblinding'
  obtain ⟨htransaction, hvoutSame, hblindingSame⟩ := (same_iff hm hn).1 h
  rw [htransaction, ht'] at ht
  rw [hm'] at hvoutSame
  rw [hn'] at hblindingSame
  cases ht
  cases hvoutSame
  cases hblindingSame
  rfl

end Seal

namespace Stash

/-! ## Looking seals up -/

/-- What a lookup among some seals gives: one that the commitment is to, none if there is none and all
are concealable, or what fails for one of them. -/
def Finds (secret : SecretSeal) (xs : List Seal) : Except Failure (Option Seal) → Prop
  | .ok (some x) => x ∈ xs ∧ x.conceal = .ok secret
  | .ok none => ∀ x ∈ xs, ∃ id, x.conceal = .ok id ∧ id ≠ secret
  | .error f => ∃ x ∈ xs, x.conceal = .error f

theorem finds_sealBehind (secret : SecretSeal) (xs : List Seal) :
    Finds secret xs (sealBehind secret xs) := by
  induction xs with
  | nil => exact nofun
  | cons x xs ih =>
    rw [sealBehind]
    cases hid : x.conceal with
    | error f => exact ⟨x, List.mem_cons_self, hid⟩
    | ok id =>
      rw [ok_bind]
      split
      · rename_i heq
        exact ⟨List.mem_cons_self, heq ▸ hid⟩
      · rename_i hne
        -- the rest decides, and what holds of it holds of all
        cases hrest : sealBehind secret xs with
        | error f =>
          rw [hrest] at ih
          obtain ⟨y, hy, hf⟩ := ih
          exact ⟨y, List.mem_cons_of_mem _ hy, hf⟩
        | ok found =>
          rw [hrest] at ih
          cases found with
          | none => exact List.forall_mem_cons.2 ⟨⟨id, hid, hne⟩, ih⟩
          | some y => exact ⟨List.mem_cons_of_mem _ ih.1, ih.2⟩

theorem finds_secretSeal (s : Stash) (secret : SecretSeal) :
    Finds secret s.seals (s.secretSeal secret) :=
  finds_sealBehind secret s.seals

/-- Seals are concealed by putting each of them beside its commitment. -/
theorem mapM_conceal_eq_ok {xs : List Seal} {ps : List (SecretSeal × Seal)} :
    (xs.mapM fun x => return (← x.conceal, x)) = Except.ok ps ↔
      xs = ps.map Prod.snd ∧ ∀ p ∈ ps, p.2.conceal = .ok p.1 := by
  rw [mapM_eq_ok]
  simp only [bind_eq_ok, pure_eq_ok]
  constructor
  · rintro ⟨qs, rfl, rfl, hqs⟩
    have hbeside : ∀ q ∈ qs, q.2.2 = q.1 ∧ q.1.conceal = .ok q.2.1 := by
      intro q hq
      obtain ⟨i, hi, heq⟩ := hqs q hq
      exact heq ▸ ⟨rfl, hi⟩
    refine ⟨?_, ?_⟩
    · rw [List.map_map]
      exact List.map_congr_left fun q hq => (hbeside q hq).1.symm
    · rw [List.forall_mem_map]
      exact fun q hq => (hbeside q hq).1 ▸ (hbeside q hq).2
  · rintro ⟨rfl, hps⟩
    refine ⟨ps.map fun p => (p.2, p), by simp [Function.comp_def], by simp [Function.comp_def], ?_⟩
    rw [List.forall_mem_map]
    exact fun p hp => ⟨p.1, hps p hp, rfl⟩

/-- The list of seals has all that are kept, ascending by their commitments, which all of them have. -/
theorem secretSeals_eq_ok {s : Stash} {xs : List Seal} (h : s.secretSeals = .ok xs) :
    (∀ x ∈ s.seals, x.Concealable) ∧ xs.Perm s.seals ∧
      xs.Pairwise fun x y => ∃ i j, x.conceal = .ok i ∧ y.conceal = .ok j ∧ i.le j = true := by
  obtain ⟨ps, hps, h⟩ := bind_eq_ok.1 h
  obtain rfl := pure_eq_ok.1 h
  obtain ⟨hseals, hps⟩ := mapM_conceal_eq_ok.1 hps
  have hsorted := List.mergeSort_perm ps fun a b => a.1.le b.1
  refine ⟨?_, ?_, ?_⟩
  · rw [hseals, List.forall_mem_map]
    exact fun p hp => ⟨p.1, hps p hp⟩
  · rw [hseals]
    exact hsorted.map _
  · refine List.pairwise_map.2 ((Id.orders_le.pairwise_mergeSort Prod.fst ps).imp_of_mem ?_)
    exact fun hp hq hle => ⟨_, _, hps _ (hsorted.mem_iff.1 hp), hps _ (hsorted.mem_iff.1 hq), hle⟩

/-- All kept seals are listed if they are concealable. -/
theorem exists_secretSeals {s : Stash} (h : ∀ x ∈ s.seals, x.Concealable) :
    ∃ xs, s.secretSeals = .ok xs := by
  obtain ⟨ps, hseals, hps⟩ :
      ∃ ps : List (SecretSeal × Seal), s.seals = ps.map Prod.snd ∧ ∀ p ∈ ps, p.2.conceal = .ok p.1 :=
    exists_eq_map fun x hx => (h x hx).imp' (·, x) fun i hi => ⟨rfl, hi⟩
  exact ⟨_, bind_eq_ok.2 ⟨ps, mapM_conceal_eq_ok.2 ⟨hseals, hps⟩, rfl⟩⟩

/-! ## Calls -/

/-- What a record that cannot be kept leaves of a stash: the types that are merged before the one that
fails stay. -/
def abandon (s : Stash) : Record → Stash
  | .types x => { s with types := (TypeSystem.Growth.merge x s.types).2 }
  | _ => s

/-- What keeping records leaves of a stash; the first that cannot be kept is the last that is tried. -/
def attempt (s : Stash) : List Record → Stash
  | [] => s
  | r :: rs =>
    match s.keep r with
    | .ok t => t.attempt rs
    | .error _ => s.abandon r

/-- A **call** that writes to a stash: it keeps one record, consumes an accepted consignment, or adds a
seal. Other calls read, and leave the stash as it is. -/
inductive Call where
  | keep (r : Record)
  | consume (v : ValidConsignment)
  | addSecretSeal (x : Seal)

/-- What a call leaves of a stash: what it returns, or what is left where it fails. -/
def call (s : Stash) : Call → Stash
  | .keep r =>
    match s.keep r with
    | .ok t => t
    | .error _ => s.abandon r
  | .consume v =>
    match s.consume v with
    | .ok (_, t) => t
    | .error _ => s.attempt v.records
  | .addSecretSeal x =>
    match s.addSecretSeal x with
    | .ok (_, t) => t
    | .error _ => s

/-- The stash after some calls. -/
def run (calls : List Call) : Stash := calls.foldl call empty

/-- A seal is **registered** by some calls when one of them adds it and returns. -/
def Registered (calls : List Call) (x : Seal) : Prop :=
  ∃ before behind, calls = before ++ .addSecretSeal x :: behind ∧
    ∃ new t, (run before).addSecretSeal x = .ok (new, t)

variable {s t : Stash}

/-- What a record that cannot be kept leaves has the same seals. -/
theorem seals_abandon (s : Stash) (r : Record) : (s.abandon r).seals = s.seals := by
  cases r <;> rfl

/-- Records leave the seals as they are, also if one of them cannot be kept. -/
theorem seals_attempt (s : Stash) (rs : List Record) : (s.attempt rs).seals = s.seals := by
  induction rs generalizing s with
  | nil => rfl
  | cons r rs ih =>
    rw [attempt]
    cases hkeep : s.keep r with
    | ok t => exact (ih t).trans (extends_of_keep hkeep).seals
    | error f => exact s.seals_abandon r

/-- A seal is added if it is a key, behind the seals that are kept unless one of them is the same. -/
theorem addSecretSeal_eq_ok {x : Seal} {new : Bool} : s.addSecretSeal x = .ok (new, t) ↔
    (x.vout.isKey && x.blinding.isKey) = true ∧ new = !s.seals.any x.same ∧
      t = if s.seals.any x.same then s else { s with seals := s.seals ++ [x] } := by
  unfold addSecretSeal
  split
  · rename_i hkey
    rw [and_iff_right hkey, Except.ok.injEq, Prod.mk.injEq, eq_comm, @eq_comm _ t]
  · rename_i hkey
    exact iff_of_false misuse_ne_ok fun h => hkey h.1

/-! ## The seals that are kept -/

/-- A list **keeps** seals when it has one of those that are the same, and nothing else. -/
structure Keeps (P : Seal → Prop) (xs : List Seal) : Prop where
  only : ∀ x ∈ xs, P x
  once : xs.Pairwise fun x y => y.same x = false
  all : ∀ x, P x → ∃ y ∈ xs, y = x ∨ x.same y = true

namespace Keeps

variable {P Q : Seal → Prop} {xs ys : List Seal}

theorem congr (h : Keeps P xs) (hPQ : ∀ x, Q x ↔ P x) : Keeps Q xs where
  only := fun x hx => (hPQ x).2 (h.only x hx)
  once := h.once
  all := fun x hx => h.all x ((hPQ x).1 hx)

/-- One more seal is added unless it is the same as one that is kept. -/
theorem add (h : Keeps P xs) (x : Seal) :
    Keeps (fun y => P y ∨ y = x) (if xs.any x.same then xs else xs ++ [x]) := by
  split
  · rename_i hany
    refine ⟨fun y hy => .inl (h.only y hy), h.once, ?_⟩
    rintro y (hy | rfl)
    · exact h.all y hy
    · obtain ⟨z, hz, hsame⟩ := List.any_eq_true.1 hany
      exact ⟨z, hz, .inr hsame⟩
  · rename_i hany
    refine ⟨?_, ?_, ?_⟩
    · intro y hy
      exact (List.mem_append.1 hy).imp (h.only y) List.mem_singleton.1
    · refine List.pairwise_append.2 ⟨h.once, List.pairwise_singleton .., fun y hy z hz => ?_⟩
      obtain rfl := List.mem_singleton.1 hz
      exact Bool.eq_false_iff.2 fun hsame => hany (List.any_eq_true.2 ⟨y, hy, hsame⟩)
    · rintro y (hy | rfl)
      · obtain ⟨z, hz, hsame⟩ := h.all y hy
        exact ⟨z, List.mem_append_left _ hz, hsame⟩
      · exact ⟨y, List.mem_append_right _ List.mem_cons_self, .inl rfl⟩

/-- In which order concealable seals are kept does not matter. -/
theorem perm (h : Keeps P xs) (hperm : ys.Perm xs) (hconcealable : ∀ x ∈ xs, x.Concealable) :
    Keeps P ys where
  only := fun x hx => h.only x (hperm.mem_iff.1 hx)
  once := by
    -- being the same is symmetric for concealable seals only
    have hxs : xs.Pairwise fun x y => y.same x = false ∧ x.same y = false :=
      h.once.imp_of_mem fun {x y} hx hy hne => ⟨hne, Bool.eq_false_iff.2 fun hsame =>
        Bool.eq_false_iff.1 hne ((hconcealable x hx).same_symm hsame)⟩
    exact ((hperm.pairwise_iff fun h => h.symm).2 hxs).imp And.left
  all := by
    intro x hx
    obtain ⟨y, hy, hsame⟩ := h.all x hx
    exact ⟨y, hperm.mem_iff.2 hy, hsame⟩

/-- A commitment to any of the seals is one to a seal that is kept, if those are concealable. -/
theorem exists_conceal (h : Keeps P xs) (hconcealable : ∀ x ∈ xs, x.Concealable) {x : Seal} (hx : P x)
    {secret : SecretSeal} (hsecret : x.conceal = .ok secret) : ∃ y ∈ xs, y.conceal = .ok secret := by
  obtain ⟨y, hy, hsame⟩ := h.all x hx
  refine ⟨y, hy, ?_⟩
  rcases hsame with rfl | hsame
  · exact hsecret
  · obtain ⟨i, hi⟩ := hconcealable y hy
    rw [hi, Seal.conceal_eq_of_same hsame hsecret hi]

end Keeps

/-- A call registers the seal that it adds. -/
theorem registered_concat {calls : List Call} {c : Call} {x : Seal} :
    Registered (calls ++ [c]) x ↔ Registered calls x ∨
      c = .addSecretSeal x ∧ ∃ new t, (run calls).addSecretSeal x = .ok (new, t) := by
  constructor
  · rintro ⟨before, behind, hcalls, hadds⟩
    rcases List.eq_nil_or_concat' behind with rfl | ⟨behind, d, rfl⟩
    · obtain ⟨rfl, hc⟩ := List.append_inj' hcalls rfl
      exact .inr ⟨List.singleton_inj.1 hc, hadds⟩
    · rw [← List.cons_append, ← List.append_assoc] at hcalls
      obtain ⟨rfl, -⟩ := List.append_inj' hcalls rfl
      exact .inl ⟨before, behind, rfl, hadds⟩
  · rintro (⟨before, behind, rfl, hadds⟩ | ⟨rfl, hadds⟩)
    · exact ⟨before, behind ++ [c], by simp, hadds⟩
    · exact ⟨calls, [], rfl, hadds⟩

/-- A call keeps the seals that are kept and the one that it adds. -/
theorem keeps_call {P : Seal → Prop} (h : Keeps P s.seals) (c : Call) :
    Keeps (fun x => P x ∨ c = .addSecretSeal x ∧ ∃ new t, s.addSecretSeal x = .ok (new, t))
      (s.call c).seals := by
  cases c with
  | keep r =>
    have hseals : (s.call (.keep r)).seals = s.seals := by
      rw [call]
      cases hkeep : s.keep r with
      | ok t => exact (extends_of_keep hkeep).seals
      | error f => exact s.seals_abandon r
    rw [hseals]
    exact h.congr fun x => or_iff_left nofun
  | consume v =>
    have hseals : (s.call (.consume v)).seals = s.seals := by
      rw [call]
      cases hconsume : s.consume v with
      | ok r => exact (extends_of_consume hconsume).seals
      | error f => exact s.seals_attempt v.records
    rw [hseals]
    exact h.congr fun x => or_iff_left nofun
  | addSecretSeal x =>
    rw [call]
    cases hadds : s.addSecretSeal x with
    | error f =>
      refine h.congr fun y => or_iff_left ?_
      rintro ⟨heq, new, t, hy⟩
      cases heq
      rw [hadds] at hy
      cases hy
    | ok added =>
      obtain ⟨-, -, ht⟩ := addSecretSeal_eq_ok.1 hadds
      have hseals : added.2.seals = if s.seals.any x.same then s.seals else s.seals ++ [x] := by
        rw [ht]
        split <;> rfl
      rw [hseals]
      refine (h.add x).congr fun y => or_congr_right ?_
      constructor
      · rintro ⟨heq, -⟩
        cases heq
        rfl
      · rintro rfl
        exact ⟨rfl, _, _, hadds⟩

/-- After any calls, the stash keeps the seals that they registered. -/
theorem keeps_run (calls : List Call) : Keeps (Registered calls) (run calls).seals := by
  -- induction on the last call, as a seal is registered in the stash before it
  induction calls using List.reverseRecOn with
  | nil =>
    refine ⟨nofun, .nil, ?_⟩
    rintro x ⟨before, behind, hcalls, -⟩
    exact absurd hcalls (by simp)
  | append_singleton calls c ih =>
    rw [run, List.foldl_append]
    exact (keeps_call ih c).congr fun x => registered_concat

/-! ## Answers -/

/-- A stash **answers** for seals when a lookup finds one that the commitment is to, or gives none if
there is none, and the list has each of them once. -/
structure Answers (s : Stash) (P : Seal → Prop) : Prop where
  found : ∀ secret, (∃ x, P x ∧ x.conceal = .ok secret) →
    ∃ x, P x ∧ x.conceal = .ok secret ∧ s.secretSeal secret = .ok (some x)
  missed : ∀ secret, (∀ x, P x → x.conceal ≠ .ok secret) → s.secretSeal secret = .ok none
  listed : ∃ xs, s.secretSeals = .ok xs ∧ Keeps P xs

/-- Every lookup returns if the kept seals are concealable. -/
theorem exists_secretSeal (h : ∀ x ∈ s.seals, x.Concealable) (secret : SecretSeal) :
    ∃ found, s.secretSeal secret = .ok found := by
  have hfinds := s.finds_secretSeal secret
  cases hfound : s.secretSeal secret with
  | ok found => exact ⟨found, rfl⟩
  | error f =>
    rw [hfound] at hfinds
    obtain ⟨x, hx, hf⟩ := hfinds
    obtain ⟨i, hi⟩ := h x hx
    rw [hi] at hf
    cases hf

/-- A stash answers for the seals that it keeps if they are concealable. -/
theorem answers_of_concealable {P : Seal → Prop} (h : Keeps P s.seals)
    (hconcealable : ∀ x ∈ s.seals, x.Concealable) : s.Answers P := by
  refine ⟨?_, ?_, ?_⟩
  · rintro secret ⟨x, hx, hsecret⟩
    have hfinds := s.finds_secretSeal secret
    obtain ⟨found, hfound⟩ := exists_secretSeal hconcealable secret
    rw [hfound] at hfinds
    cases found with
    | none =>
      obtain ⟨y, hy, hy'⟩ := h.exists_conceal hconcealable hx hsecret
      obtain ⟨i, hi, hne⟩ := hfinds y hy
      rw [hi] at hy'
      cases hy'
      exact absurd rfl hne
    | some y => exact ⟨y, h.only y hfinds.1, hfinds.2, hfound⟩
  · intro secret hsecret
    have hfinds := s.finds_secretSeal secret
    obtain ⟨found, hfound⟩ := exists_secretSeal hconcealable secret
    rw [hfound] at hfinds
    cases found with
    | none => exact hfound
    | some y => exact absurd hfinds.2 (hsecret y (h.only y hfinds.1))
  · obtain ⟨xs, hxs⟩ := exists_secretSeals hconcealable
    exact ⟨xs, hxs, h.perm (secretSeals_eq_ok hxs).2.1 hconcealable⟩

/-- A kept seal without a commitment fails the list, and every lookup that would give none. -/
theorem fails_of_not_concealable {P : Seal → Prop} (h : Keeps P s.seals) {x : Seal} (hx : x ∈ s.seals)
    (hconcealable : ¬ x.Concealable) :
    (∃ f, s.secretSeals = .error f) ∧
      ∀ secret, (∀ y, P y → y.conceal ≠ .ok secret) → ∃ f, s.secretSeal secret = .error f := by
  constructor
  · cases hlisted : s.secretSeals with
    | error f => exact ⟨f, rfl⟩
    | ok xs => exact absurd ((secretSeals_eq_ok hlisted).1 x hx) hconcealable
  · intro secret hsecret
    have hfinds := s.finds_secretSeal secret
    cases hfound : s.secretSeal secret with
    | error f => exact ⟨f, rfl⟩
    | ok found =>
      rw [hfound] at hfinds
      cases found with
      | none => exact absurd ((hfinds x hx).imp fun i hi => hi.1) hconcealable
      | some y => exact absurd hfinds.2 (hsecret y (h.only y hfinds.1))

/-- A seal of an output whose number does not fit. -/
def distantSeal : Seal := ⟨none, .int 4294967296, .int 0⟩

/-- **A wallet finds its seals again exactly if all of them are concealable.** After any calls, the
stash keeps the seals that were registered, and answers for them if and only if there is a commitment
to each that is kept. If there is none to one of them, there is no list, and every lookup of a
commitment to none of the seals fails. -/
theorem answers_iff_concealable (calls : List Call) :
    Keeps (Registered calls) (run calls).seals ∧
      ((run calls).Answers (Registered calls) ↔ ∀ x ∈ (run calls).seals, x.Concealable) ∧
      ∀ x ∈ (run calls).seals, ¬ x.Concealable → (∃ f, (run calls).secretSeals = .error f) ∧
        ∀ secret, (∀ y, Registered calls y → y.conceal ≠ .ok secret) →
          ∃ f, (run calls).secretSeal secret = .error f := by
  have hkeeps := keeps_run calls
  refine ⟨hkeeps, ⟨fun hanswers => ?_, answers_of_concealable hkeeps⟩, fun x hx =>
    fails_of_not_concealable hkeeps hx⟩
  obtain ⟨xs, hxs, -⟩ := hanswers.listed
  exact (secretSeals_eq_ok hxs).1

/-- A seal that is added twice is found, and listed once; a seal whose output does not fit is not
listed. -/
theorem answers_iff_concealable_twice :
    let calls := [Call.addSecretSeal (blindedSeal (.int 0)), .keep (.library []),
      .addSecretSeal (blindedSeal (.int 0))]
    Keeps (Registered calls) [blindedSeal (.int 0)] ∧ (run calls).Answers (Registered calls) ∧
      ∃ f, (run [.addSecretSeal distantSeal]).secretSeals = .error f := by
  intro calls
  have hsame : (blindedSeal (.int 0)).same (blindedSeal (.int 0)) = true :=
    (Seal.same_iff rfl rfl).2 ⟨rfl, rfl, rfl⟩
  have hseals : (run calls).seals = [blindedSeal (.int 0)] := by
    -- the second one is the same as the first, which is kept
    show (if [blindedSeal (.int 0)].any (blindedSeal (.int 0)).same then _ else _ : Stash).seals = _
    rw [List.any_cons, hsame, Bool.true_or, if_pos rfl]
    rfl
  have hconcealable : ∀ x ∈ (run calls).seals, x.Concealable := by
    rw [hseals, List.forall_mem_singleton]
    exact ⟨_, conceal_blindedSeal (toOption_eq_some.1 (by decide +kernel))⟩
  obtain ⟨hkeeps, hanswers, -⟩ := answers_iff_concealable calls
  rw [hseals] at hkeeps
  have hdistant : ¬ distantSeal.Concealable := by
    rintro ⟨i, hi⟩
    cases hi
  have hkept : distantSeal ∈ (run [.addSecretSeal distantSeal]).seals := List.mem_singleton_self _
  exact ⟨hkeeps, hanswers.2 hconcealable, ((answers_iff_concealable _).2.2 _ hkept hdistant).1⟩

/-- A seal whose output does not fit is added, but then no lookup of any commitment returns, nor is
there a list. -/
theorem lookups_spoiled :
    let calls := [Call.addSecretSeal distantSeal]
    (∃ t, empty.addSecretSeal distantSeal = .ok (true, t)) ∧ Registered calls distantSeal ∧
      (∀ secret x, Registered calls x → x.conceal ≠ .ok secret) ∧
      ∃ e : StrictError, e.kind = .integerOverflow ∧ e.field = "vout" ∧
        (∀ secret, (run calls).secretSeal secret = .error (.strict e)) ∧
        (run calls).secretSeals = .error (.strict e) := by
  intro calls
  have hadded : empty.addSecretSeal distantSeal = .ok (true, run calls) := rfl
  have hregistered : ∀ x, Registered calls x → x = distantSeal := by
    rintro x ⟨before, behind, hcalls, -⟩
    have hmem : Call.addSecretSeal x ∈ calls := hcalls ▸ by simp
    cases List.mem_singleton.1 hmem
    rfl
  refine ⟨⟨_, hadded⟩, ⟨[], [], rfl, _, _, hadded⟩, ?_, _, ?_, ?_, fun _ => rfl, rfl⟩
  · rintro secret x hx hsecret
    rw [hregistered x hx] at hsecret
    cases hsecret
  · rfl
  · decide

end Stash

end StrictContract
