import StrictContract.Codec.Read
import StrictContract.Proofs.Outcome

/-! # Framing — what a reader takes from the front of a byte string

A reader **matches** a relation between results and byte strings if it succeeds on exactly those
inputs that begin with a byte string related to its result, takes these bytes and no others, and
leaves the rest alone. Readers built from matching parts match the relation composed of theirs:
`Reader.matches_bind` for sequences, `Reader.matches_repeated` and `Reader.matches_chained` for
loops. What a matching reader takes is the same whatever stands behind it. -/

namespace StrictContract.Reader

variable {α β : Type}

/-- A reader **matches** a relation between results and the bytes they are read from. -/
def Matches (r : Reader α) (R : α → Octets → Prop) : Prop :=
  ∀ (pos : Nat) (octets : Octets) (a : α) (c : Cursor),
    r ⟨pos, octets⟩ = .ok (a, c) ↔
      ∃ p, octets = p ++ c.rest ∧ c.position = pos + p.length ∧ R a p

/-- A reader matches every relation that has the same pairs. -/
theorem Matches.congr {r : Reader α} {R S : α → Octets → Prop} (h : r.Matches R)
    (hRS : ∀ a p, R a p ↔ S a p) : r.Matches S := by
  intro pos octets a c
  simp only [h pos octets a c, hRS]

/-! ## Single steps -/

/-- Taking a number of bytes gives these bytes. -/
theorem matches_take (n : Nat) : (take n).Matches fun a p => p = a ∧ a.length = n := by
  intro pos octets a c
  unfold take
  simp only
  by_cases h : (octets.take n).length = n
  · rw [if_pos h]
    constructor
    · intro ho
      cases ho
      exact ⟨octets.take n, (List.take_append_drop n octets).symm, by rw [h], rfl, h⟩
    · rintro ⟨p, rfl, hc, rfl, rfl⟩
      simp only [List.take_left, List.drop_left, ← hc]
  · rw [if_neg h]
    constructor
    · intro ho; cases ho
    · rintro ⟨p, rfl, -, rfl, rfl⟩
      exact absurd (by rw [List.take_left]) h

/-- A pure result takes no bytes. -/
theorem matches_pure (a : α) : (pure a : Reader α).Matches fun b p => b = a ∧ p = [] := by
  intro pos octets b c
  constructor
  · intro h
    cases h
    exact ⟨[], rfl, rfl, rfl, rfl⟩
  · rintro ⟨p, rfl, hc, rfl, rfl⟩
    obtain ⟨position, rest⟩ := c
    cases hc
    rfl

/-- A computation that reads nothing takes no bytes. -/
theorem matches_lift (x : Except Failure α) :
    (monadLift x : Reader α).Matches fun a p => x = .ok a ∧ p = [] := by
  intro pos octets a c
  cases x with
  | error e =>
    constructor
    · intro h; cases h
    · rintro ⟨p, -, -, h, -⟩; cases h
  | ok b =>
    refine (matches_pure b pos octets a c).trans ?_
    simp only [Except.ok.injEq, @eq_comm _ a b]

/-- A refusal matches nothing. -/
theorem matches_refuse (cause : Cause) :
    (refuse cause : Reader α).Matches fun _ _ => False := by
  intro pos octets a c
  constructor
  · intro h; cases h
  · rintro ⟨p, -, -, h⟩; exact h.elim

/-- A sequence of two readers takes the bytes of the one and then those of the other. -/
theorem matches_bind {r : Reader α} {f : α → Reader β} {R : α → Octets → Prop}
    {S : α → β → Octets → Prop} (hr : r.Matches R) (hf : ∀ a, (f a).Matches (S a)) :
    (r >>= f).Matches fun b p => ∃ a q t, p = q ++ t ∧ R a q ∧ S a b t := by
  intro pos octets b c
  have hbind : (r >>= f) ⟨pos, octets⟩ = (r ⟨pos, octets⟩ >>= fun x => f x.1 x.2) := rfl
  rw [hbind, bind_eq_ok]
  constructor
  · rintro ⟨⟨a, ⟨pos', rest⟩⟩, ha, hb⟩
    obtain ⟨q, rfl, hq, hR⟩ := (hr _ _ _ _).1 ha
    obtain ⟨t, rfl, ht, hS⟩ := (hf _ _ _ _ _).1 hb
    refine ⟨q ++ t, (List.append_assoc _ _ _).symm, ?_, a, q, t, rfl, hR, hS⟩
    simp only at hq
    rw [ht, hq, List.length_append, Nat.add_assoc]
  · rintro ⟨p, rfl, hc, a, q, t, rfl, hR, hS⟩
    refine ⟨(a, ⟨pos + q.length, t ++ c.rest⟩), (hr _ _ _ _).2 ⟨q, ?_, rfl, hR⟩, ?_⟩
    · exact List.append_assoc _ _ _
    · refine (hf _ _ _ _ _).2 ⟨t, rfl, ?_, hS⟩
      rw [hc, List.length_append, Nat.add_assoc]

/-- A reader followed by a pure function takes the bytes of the reader. -/
theorem matches_map {r : Reader α} {f : α → β} {R : α → Octets → Prop} (hr : r.Matches R) :
    (r >>= fun a => pure (f a)).Matches fun b p => ∃ a, b = f a ∧ R a p :=
  (matches_bind hr fun a => matches_pure (f a)).congr fun b p => by
    constructor
    · rintro ⟨a, q, t, rfl, hR, rfl, rfl⟩
      exact ⟨a, rfl, by rwa [List.append_nil]⟩
    · rintro ⟨a, rfl, hR⟩
      exact ⟨a, p, [], (List.append_nil p).symm, hR, rfl, rfl⟩

/-- Naming the place of a reader does not change what it takes. -/
theorem matches_within {r : Reader α} {R : α → Octets → Prop} (segment : String)
    (hr : r.Matches R) : (within segment r).Matches R := by
  intro pos octets a c
  rw [← hr pos octets a c]
  exact inside_eq_ok

/-- Naming the entry that a reader reads does not change what it takes. -/
theorem matches_withinEntry {r : Reader α} {R : α → Octets → Prop} (key : Value)
    (hr : r.Matches R) : (withinEntry key r).Matches R := by
  intro pos octets a c
  rw [← hr pos octets a c]
  exact insideEntry_eq_ok

/-- A reader that gives the bytes it took gives exactly these. -/
theorem matches_withOctets {r : Reader α} {R : α → Octets → Prop} (hr : r.Matches R) :
    (withOctets r).Matches fun x p => x.1 = p ∧ R x.2 p := by
  intro pos octets x c
  have hspan : ∀ (p : Octets) (c' : Cursor), octets = p ++ c'.rest → c'.position = pos + p.length →
      (Cursor.mk pos octets).upTo c' = p := by
    rintro p c' rfl hc
    simp only [Cursor.upTo, hc, Nat.add_sub_cancel_left, List.take_left]
  unfold withOctets
  constructor
  · intro h
    split at h
    · rename_i a c' ha
      cases h
      obtain ⟨p, hp, hc, hR⟩ := (hr _ _ _ _).1 ha
      exact ⟨p, hp, hc, hspan p c hp hc, hR⟩
    · cases h
  · rintro ⟨p, hp, hc, hx, hR⟩
    rw [(hr pos octets x.2 c).2 ⟨p, hp, hc, hR⟩]
    simp only [hspan p c hp hc, ← hx]

/-! ## Numbers -/

/-- Taking one byte gives its number. -/
theorem matches_byte : byte.Matches fun n p => ∃ b : UInt8, p = [b] ∧ n = b.toNat :=
  (matches_map (matches_take 1)).congr fun n p => by
    constructor
    · rintro ⟨a, rfl, rfl, ha⟩
      obtain ⟨b, rfl⟩ := List.length_eq_one_iff.1 ha
      exact ⟨b, rfl, by simp⟩
    · rintro ⟨b, rfl, rfl⟩
      exact ⟨[b], by simp, rfl, rfl⟩

/-- Taking an integer gives the number that its bytes denote. -/
theorem matches_nat (size : Nat) :
    (nat size).Matches fun n p => n = Octets.toNat p ∧ p.length = size :=
  (matches_map (matches_take size)).congr fun n p => by
    constructor
    · rintro ⟨a, rfl, rfl, ha⟩; exact ⟨rfl, ha⟩
    · rintro ⟨rfl, hp⟩; exact ⟨p, rfl, rfl, hp⟩

/-! ## Loops -/

/-- A loop takes the bytes of its items one after another. -/
theorem matches_repeated {item : Nat → Reader α} {R : α → Octets → Prop}
    (hitem : ∀ i, (item i).Matches R) (n i : Nat) (found : List α) :
    (repeated item n i found).Matches fun as p => ∃ xs : List (α × Octets),
      xs.length = n ∧ (∀ x ∈ xs, R x.1 x.2) ∧ as = found.reverse ++ xs.map Prod.fst ∧
        p = (xs.map Prod.snd).flatten := by
  induction n generalizing i found with
  | zero =>
    refine (matches_pure found.reverse).congr fun as p => ?_
    constructor
    · rintro ⟨rfl, rfl⟩; exact ⟨[], rfl, nofun, by simp, rfl⟩
    · rintro ⟨xs, hxs, -, rfl, rfl⟩
      rw [List.length_eq_zero_iff.1 hxs]
      simp
  | succ n ih =>
    refine (matches_bind (hitem i) fun a => ih (i + 1) (a :: found)).congr fun as p => ?_
    constructor
    · rintro ⟨a, q, t, rfl, hR, xs, rfl, hxs, rfl, rfl⟩
      exact ⟨(a, q) :: xs, rfl, List.forall_mem_cons.2 ⟨hR, hxs⟩, by simp, by simp⟩
    · rintro ⟨xs, hn, hxs, rfl, rfl⟩
      obtain ⟨x, xs, rfl⟩ := List.exists_cons_of_length_eq_add_one hn
      rw [List.forall_mem_cons] at hxs
      exact ⟨x.1, x.2, (xs.map Prod.snd).flatten, by simp, hxs.1, xs, by simpa using hn, hxs.2,
        by simp, rfl⟩

/-- The order that the entries of a loop have to keep: keys ascend, and the first comes after the one
before the loop. -/
def Follows (before : Option Octets) (keys : List Octets) : Prop :=
  (before.toList ++ keys).Pairwise (· < ·)

/-- Entries follow one another when each comes after its neighbour. -/
theorem follows_cons {before : Option Octets} {k : Octets} {ks : List Octets} :
    Follows before (k :: ks) ↔ (∀ b ∈ before, b < k) ∧ Follows (some k) ks := by
  cases before with
  | none => simp [Follows]
  | some b =>
    simp only [Follows, Option.toList_some, List.cons_append, List.nil_append, List.pairwise_cons,
      List.forall_mem_cons, Option.mem_some_iff, forall_eq']
    constructor
    · rintro ⟨⟨hbk, -⟩, hk, hks⟩; exact ⟨hbk, hk, hks⟩
    · rintro ⟨hbk, hk, hks⟩
      exact ⟨⟨hbk, fun x hx => List.lt_trans hbk (hk x hx)⟩, hk, hks⟩

/-- A loop whose entries are ordered takes the bytes of the entries one after another, and their
keys ascend. -/
theorem matches_chained {entry : Nat → Option Octets → Reader (Octets × α)}
    {R : Octets → α → Octets → Prop}
    (hentry : ∀ i before, (entry i before).Matches fun x p =>
      (∀ b ∈ before, b < x.1) ∧ R x.1 x.2 p)
    (n i : Nat) (before : Option Octets) (found : List α) :
    (chained entry n i before found).Matches fun as p => ∃ xs : List (Octets × α × Octets),
      xs.length = n ∧ (∀ x ∈ xs, R x.1 x.2.1 x.2.2) ∧ Follows before (xs.map Prod.fst) ∧
        as = found.reverse ++ xs.map (·.2.1) ∧ p = (xs.map (·.2.2)).flatten := by
  induction n generalizing i before found with
  | zero =>
    refine (matches_pure found.reverse).congr fun as p => ?_
    constructor
    · rintro ⟨rfl, rfl⟩
      exact ⟨[], rfl, nofun, by cases before <;> simp [Follows], by simp, rfl⟩
    · rintro ⟨xs, hxs, -, -, rfl, rfl⟩
      rw [List.length_eq_zero_iff.1 hxs]
      simp
  | succ n ih =>
    refine (matches_bind (hentry i before) fun x => ih (i + 1) (some x.1) (x.2 :: found)).congr
      fun as p => ?_
    constructor
    · rintro ⟨⟨k, a⟩, q, t, rfl, ⟨hk, hR⟩, xs, rfl, hxs, hf, rfl, rfl⟩
      exact ⟨(k, a, q) :: xs, rfl, List.forall_mem_cons.2 ⟨hR, hxs⟩, follows_cons.2 ⟨hk, hf⟩,
        by simp, by simp⟩
    · rintro ⟨xs, hn, hxs, hf, rfl, rfl⟩
      obtain ⟨x, xs, rfl⟩ := List.exists_cons_of_length_eq_add_one hn
      rw [List.forall_mem_cons] at hxs
      rw [List.map_cons, follows_cons] at hf
      exact ⟨(x.1, x.2.1), x.2.2, (xs.map (·.2.2)).flatten, by simp, ⟨hf.1, hxs.1⟩, xs,
        by simpa using hn, hxs.2, hf.2, by simp, rfl⟩

/-! ## Whole byte strings -/

/-- A whole byte string is read when all of it belongs to the result. -/
theorem Matches.exactly_eq_ok {r : Reader α} {R : α → Octets → Prop} (hr : r.Matches R)
    {octets : Octets} {a : α} : r.exactly octets = .ok a ↔ R a octets := by
  unfold exactly
  constructor
  · intro h
    split at h
    · rename_i b c hb
      split at h
      · rename_i hrest
        cases h
        obtain ⟨p, hp, -, hR⟩ := (hr _ _ _ _).1 hb
        rwa [hp, hrest, List.append_nil]
      · cases h
    · cases h
  · intro hR
    have h := (hr 0 octets a ⟨octets.length, []⟩).2 ⟨octets, by simp, by simp, hR⟩
    rw [Cursor.start, h]

/-- What a matching reader reads is determined by its bytes, and so is how many of them it takes. -/
theorem Matches.unique {r : Reader α} {R : α → Octets → Prop} (hr : r.Matches R) {a b : α}
    {p q s t : Octets} (ha : R a p) (hb : R b q) (h : p ++ s = q ++ t) : a = b ∧ p = q := by
  have h₁ := (hr 0 (p ++ s) a ⟨p.length, s⟩).2 ⟨p, rfl, by simp, ha⟩
  have h₂ := (hr 0 (p ++ s) b ⟨q.length, t⟩).2 ⟨q, h, by simp, hb⟩
  rw [h₁] at h₂
  simp only [Except.ok.injEq, Prod.mk.injEq, Cursor.mk.injEq] at h₂
  exact ⟨h₂.1, (List.append_inj h h₂.2.1).1⟩

end StrictContract.Reader
