import StrictContract.Proofs.Codec.Steady

/-! # Strictness — when reading fails with an error of the library only

A computation is **strict** if whatever it fails with is a strict error, with a cause and a path.
Strict steps make strict readers. Reading with a steady codec is strict, so a steady codec answers
every byte string: with a value if it spells the byte string, and with a strict error if not. -/

namespace StrictContract

variable {α β : Type}

/-- A **strict** computation fails with strict errors only. -/
def IsStrict (x : Except Failure α) : Prop := ∀ f, x = .error f → ∃ e, f = .strict e

/-- A result is no failure. -/
theorem isStrict_ok (a : α) : IsStrict (.ok a) := nofun

/-- A cause is a strict error. -/
theorem isStrict_fail (cause : Cause) : IsStrict (fail cause : Except Failure α) := by
  rintro _ ⟨⟩
  exact ⟨_, rfl⟩

/-- Naming the place of a strict computation leaves it strict. -/
theorem IsStrict.inside {x : Except Failure α} (hx : IsStrict x) (segment : String) :
    IsStrict (inside segment x) := by
  cases x with
  | ok a => exact isStrict_ok a
  | error f =>
    obtain ⟨e, rfl⟩ := hx f rfl
    rintro _ ⟨⟩
    exact ⟨_, rfl⟩

/-- Naming the entry of a strict computation leaves it strict if the entry has a label. -/
theorem IsStrict.insideEntry {x : Except Failure α} (hx : IsStrict x) {key : Value}
    (hkey : key.HasLabel) : IsStrict (insideEntry key x) := by
  cases x with
  | ok a => exact isStrict_ok a
  | error f =>
    obtain ⟨e, rfl⟩ := hx f rfl
    obtain ⟨label, hlabel⟩ := hkey
    intro g hg
    rw [StrictContract.insideEntry, hlabel] at hg
    exact hx.inside (entrySegment label) g hg

/-- The checks of codecs fail with strict errors. -/
theorem isStrict_checkEntries (b : Bounds) (n : Nat) : IsStrict (b.checkEntries n) := by
  unfold Bounds.checkEntries
  split
  · exact isStrict_ok _
  · exact isStrict_fail _

theorem isStrict_checkOctets (b : Bounds) (n : Nat) : IsStrict (b.checkOctets n) := by
  unfold Bounds.checkOctets
  split
  · exact isStrict_ok _
  · exact isStrict_fail _

theorem isStrict_checkAscending (before : Option Octets) (octets : Octets) (label : String) :
    IsStrict (checkAscending before octets label) := by
  unfold checkAscending
  split
  · exact isStrict_ok _
  · split
    · exact isStrict_fail _
    · split
      · exact isStrict_fail _
      · exact isStrict_ok _

theorem isStrict_checkTextLength (head : Nat) (b : Bounds) (n : Nat) :
    IsStrict (checkTextLength head b n) := by
  unfold checkTextLength
  split
  · exact isStrict_ok _
  · exact isStrict_fail _

theorem isStrict_checkChars (rest first : Charset) (i : Nat) (cs : List Char) :
    IsStrict (checkChars rest first i cs) := by
  induction cs generalizing first i with
  | nil => exact isStrict_ok _
  | cons c cs ih =>
    rw [checkChars]
    split
    · exact ih _ _
    · exact isStrict_fail _

/-! ## Readers -/

namespace Reader

/-- A **strict** reader fails with strict errors only. -/
def Strict (r : Reader α) : Prop := ∀ c, IsStrict (r c)

theorem strict_pure (a : α) : (pure a : Reader α).Strict := fun _ => isStrict_ok _

theorem strict_refuse (cause : Cause) : (refuse cause : Reader α).Strict :=
  fun _ => isStrict_fail _

theorem strict_take (n : Nat) : (take n).Strict := by
  intro c
  unfold take
  dsimp only
  split
  · exact isStrict_ok _
  · exact isStrict_fail _

/-- A strict check is a strict step of a reader. -/
theorem strict_lift {x : Except Failure α} (hx : IsStrict x) : (monadLift x : Reader α).Strict := by
  rintro c f hf
  cases x with
  | ok a => cases hf
  | error g =>
    cases hf
    exact hx _ rfl

/-- A reader of two steps is strict if the first one is, and the second one after whatever the first
one gives. -/
theorem Strict.bind_of_eq_ok {r : Reader α} {f : α → Reader β} (hr : r.Strict)
    (hf : ∀ c a c', r c = .ok (a, c') → (f a).Strict) : (r >>= f).Strict := by
  intro c
  have hbind : (r >>= f) c = (r c >>= fun x => f x.1 x.2) := rfl
  rw [hbind]
  cases h : r c with
  | error e =>
    rintro _ ⟨⟩
    exact hr c e h
  | ok x => exact hf c x.1 x.2 h x.2

/-- A reader of two strict steps is strict. -/
theorem Strict.bind {r : Reader α} {f : α → Reader β} (hr : r.Strict) (hf : ∀ a, (f a).Strict) :
    (r >>= f).Strict :=
  hr.bind_of_eq_ok fun _ a _ _ => hf a

/-- The second step may rely on what the first one reads. -/
theorem Strict.bind_of_matches {r : Reader α} {R : α → Octets → Prop} {f : α → Reader β}
    (hr : r.Strict) (hmatches : r.Matches R) (hf : ∀ a p, R a p → (f a).Strict) :
    (r >>= f).Strict := by
  refine hr.bind_of_eq_ok fun c a c' h => ?_
  obtain ⟨p, -, -, hR⟩ := (hmatches c.position c.rest a c').1 h
  exact hf a p hR

theorem Strict.map {r : Reader α} (hr : r.Strict) (f : α → β) : (f <$> r).Strict :=
  hr.bind fun a => strict_pure (f a)

theorem Strict.within {r : Reader α} (hr : r.Strict) (segment : String) :
    (within segment r).Strict := fun c => (hr c).inside segment

theorem Strict.withinEntry {r : Reader α} (hr : r.Strict) {key : Value} (hkey : key.HasLabel) :
    (withinEntry key r).Strict := fun c => (hr c).insideEntry hkey

theorem Strict.withOctets {r : Reader α} (hr : r.Strict) : (withOctets r).Strict := by
  intro c
  unfold Reader.withOctets
  split
  · exact isStrict_ok _
  · rename_i e h
    rintro _ ⟨⟩
    exact hr c e h

theorem strict_byte : byte.Strict := (strict_take 1).map _

theorem strict_nat (size : Nat) : (nat size).Strict := (strict_take size).map _

/-- A loop of strict rounds is strict. -/
theorem strict_repeated {item : Nat → Reader α} (hitem : ∀ i, (item i).Strict) (n i : Nat)
    (found : List α) : (repeated item n i found).Strict := by
  induction n generalizing i found with
  | zero => exact strict_pure _
  | succ n ih => exact (hitem i).bind fun a => ih (i + 1) (a :: found)

/-- A loop of strict entries is strict. -/
theorem strict_chained {entry : Nat → Option Octets → Reader (Octets × α)}
    (hentry : ∀ i before, (entry i before).Strict) (n i : Nat) (before : Option Octets)
    (found : List α) : (chained entry n i before found).Strict := by
  induction n generalizing i before found with
  | zero => exact strict_pure _
  | succ n ih => exact (hentry i before).bind fun x => ih (i + 1) (some x.1) (x.2 :: found)

/-- Strings are read strictly. -/
theorem strict_text (first rest : Charset) (b : Bounds) : (text first rest b).Strict := by
  refine (strict_take _).bind fun front => (strict_nat _).bind fun n => ?_
  refine (strict_lift (isStrict_checkTextLength _ _ _)).bind fun _ => (strict_take n).bind fun tail => ?_
  dsimp only
  split
  · exact strict_refuse _
  · refine (strict_lift (isStrict_checkTextLength _ _ _)).bind fun _ => ?_
    exact (strict_lift (isStrict_checkChars _ _ _ _)).bind fun _ => strict_pure _

/-- Whole byte strings are read strictly with a strict reader. -/
theorem Strict.exactly {r : Reader α} (hr : r.Strict) (octets : Octets) :
    IsStrict (r.exactly octets) := by
  unfold Reader.exactly
  split
  · split
    · exact isStrict_ok _
    · exact isStrict_fail _
  · rename_i e h
    rintro _ ⟨⟩
    exact hr _ e h

end Reader

/-! ## Codecs -/

namespace Codec

open Reader

attribute [local simp] read readItems readFields readVariant

/-- Items are read strictly with strict codecs. -/
theorem strict_readItems {items : List Codec} (h : ∀ c ∈ items, (read c).Strict) (i : Nat) :
    (readItems items i).Strict := by
  induction items generalizing i with
  | nil => exact strict_pure _
  | cons c rest ih =>
    rw [List.forall_mem_cons] at h
    rw [readItems]
    exact (h.1.within _).bind fun v => (ih h.2 (i + 1)).map _

/-- Fields are read strictly with strict codecs. -/
theorem strict_readFields {fields : List (String × Codec)} (h : ∀ f ∈ fields, (read f.2).Strict) :
    (readFields fields).Strict := by
  induction fields with
  | nil => exact strict_pure _
  | cons f rest ih =>
    rw [List.forall_mem_cons] at h
    rw [readFields]
    exact (h.1.within _).bind fun v => (ih h.2).map _

/-- A payload is read strictly with strict codecs. -/
theorem strict_readVariant {variants : List (Nat × String × Codec)}
    (h : ∀ x ∈ variants, (read x.2.2).Strict) (union : String) (tag : Nat) :
    (readVariant union tag variants).Strict := by
  induction variants with
  | nil => exact strict_refuse _
  | cons x rest ih =>
    rw [List.forall_mem_cons] at h
    rw [readVariant]
    split
    · exact (h.1.within _).bind fun payload => strict_pure _
    · exact ih h.2

/-- An element of a set is read strictly. -/
theorem strict_readElement {item : Codec} (hitem : (read item).Strict) (i : Nat)
    (before : Option Octets) : (readElement item i before).Strict :=
  (hitem.withOctets.bind fun _ =>
    (strict_lift (isStrict_checkAscending _ _ _)).bind fun _ => strict_pure _).within _

/-- A key of a map is read strictly. -/
theorem strict_readKey {key : Codec} (hkey : (read key).Strict)
    (hlabelled : ∀ k p, Encodes key k p → k.HasLabel) (i : Nat) (before : Option Octets) :
    (readKey key i before).Strict := by
  refine (hkey.withOctets.bind_of_matches (matches_withOctets (read_matches key))
    fun x p hx => ?_).within _
  -- an error about the order names the key by its label
  obtain ⟨label, hlabel⟩ := hlabelled _ _ hx.2
  dsimp only
  rw [hlabel]
  refine (strict_lift (isStrict_ok label)).bind fun label => ?_
  exact (strict_lift (isStrict_checkAscending _ _ _)).bind fun _ => strict_pure _

/-- An entry of a map is read strictly. -/
theorem strict_readEntry {key value : Codec} (hkey : (read key).Strict)
    (hlabelled : ∀ k p, Encodes key k p → k.HasLabel) (hvalue : (read value).Strict) (i : Nat)
    (before : Option Octets) : (readEntry key value i before).Strict :=
  (strict_readKey hkey hlabelled i before).bind_of_matches (matches_readKey (read_matches key) i before)
    fun _ _ hx => (hvalue.withinEntry hx.2.2.2).bind fun _ => strict_pure _

/-- The elements of a set are read strictly. -/
theorem strict_set {item : Codec} {b : Bounds} {form : SetForm} {label : Option String}
    (hsteady : (set item b form label).Steady) (hitem : (read item).Strict) :
    (read (set item b form label)).Strict := by
  rw [read_set]
  refine (strict_nat _).bind fun n => (strict_lift (isStrict_checkEntries b n)).bind fun _ => ?_
  -- making the set fails only on elements that are no keys, and a steady set reads keys
  refine (strict_chained (strict_readElement hitem) n 0 none []).bind_of_matches (matches_chained
    (R := fun k v p => k = p ∧ Encodes item v p) (matches_readElement (read_matches item)) n 0 none [])
    fun items p hitems => ?_
  obtain ⟨xs, -, hxs, -, rfl, -⟩ := hitems
  have hkeys : form = .members → ∀ v ∈ [].reverse ++ xs.map (·.2.1), v.isKey = true := by
    rintro rfl
    exact List.forall_mem_map.2 fun x hx => hsteady _ _ (hxs x hx).2
  obtain ⟨v, hv⟩ := exists_setValue hkeys
  rw [hv]
  exact strict_lift (isStrict_ok v)

/-- The entries of a map are read strictly. -/
theorem strict_map {key value : Codec} {b : Bounds} {form : MapForm} {label : Option String}
    (hsteady : (map key value b form label).Steady) (hkey : (read key).Strict)
    (hvalue : (read value).Strict) : (read (map key value b form label)).Strict := by
  rw [read_map]
  refine (strict_nat _).bind fun n => (strict_lift (isStrict_checkEntries b n)).bind fun _ => ?_
  have hentry := strict_readEntry hkey (fun k p hk => (hsteady k p hk).1) hvalue
  refine (strict_chained hentry n 0 none []).bind_of_matches (matches_chained
    (R := fun k e p => ∃ q, p = k ++ q ∧ Encodes key e.1 k ∧ e.1.HasLabel ∧ Encodes value e.2 q)
    (matches_readEntry (read_matches key) (read_matches value)) n 0 none []) fun entries p hentries => ?_
  obtain ⟨xs, -, hxs, -, rfl, -⟩ := hentries
  have hkeys : form = .mapping → ∀ e ∈ [].reverse ++ xs.map (·.2.1), e.1.isKey = true := by
    intro hform
    refine List.forall_mem_map.2 fun x hx => ?_
    obtain ⟨q, -, hk, -⟩ := hxs x hx
    exact (hsteady _ _ hk).2 hform
  obtain ⟨v, hv⟩ := exists_mapValue hkeys
  rw [hv]
  exact strict_lift (isStrict_ok v)

/-- Reading with a steady codec is strict. -/
theorem strict_read {c : Codec} (hsteady : c.Throughout Steady) : (read c).Strict := by
  induction c using childInduction with | h c ih => ?_
  replace ih : ∀ s ∈ c.children, (read s).Strict := fun s hs => ih s hs (hsteady.child hs)
  have hself := hsteady.self
  cases c with
  | unit => exact strict_pure _
  | bool =>
    rw [read]
    refine strict_byte.bind fun n => ?_
    split
    · exact strict_refuse _
    · exact strict_pure _
  | unicode =>
    rw [read]
    refine (strict_nat 4).bind fun n => ?_
    split
    · exact strict_pure _
    · exact strict_refuse _
  | uint size =>
    rw [read]
    exact (strict_nat size).bind fun n => strict_pure _
  | sint size | byteArray size =>
    rw [read]
    exact (strict_take size).bind fun octets => strict_pure _
  | id kind =>
    rw [read]
    refine (strict_take 32).bind fun octets => ?_
    split
    · exact strict_pure _
    · exact strict_refuse _
  | bytes b label =>
    rw [read]
    refine (strict_nat _).bind fun n => (strict_lift (isStrict_checkOctets b n)).bind fun _ => ?_
    exact (strict_take n).map _
  | ascii first rest b label =>
    rw [read]
    exact strict_text first rest b
  | list item b label =>
    have hitem := ih item (List.mem_singleton.2 rfl)
    rw [read]
    refine (strict_nat _).bind fun n => (strict_lift (isStrict_checkEntries b n)).bind fun _ => ?_
    exact (strict_repeated (fun i => hitem.within _) n 0 []).map _
  | set item b form label => exact strict_set hself (ih item (List.mem_singleton.2 rfl))
  | map key value b form label =>
    exact strict_map hself (ih key (List.mem_cons_self ..)) (ih value (by simp [children]))
  | array item count =>
    have hitem := ih item (List.mem_singleton.2 rfl)
    rw [read]
    exact (strict_repeated (fun i => hitem.within _) count 0 []).map _
  | option inner =>
    rw [read]
    refine strict_byte.bind fun n => ?_
    split
    · exact strict_pure _
    · split
      · exact ih inner (List.mem_singleton.2 rfl)
      · exact strict_refuse _
  | tuple items =>
    rw [read]
    exact (strict_readItems ih 0).map _
  | struct name fields form wrapped =>
    rw [read]
    refine (strict_readFields fun f hf => ih f.2 (List.mem_map_of_mem hf)).bind fun vs => ?_
    obtain ⟨v, hv⟩ := exists_structValue hself.receptive vs
    rw [hv]
    exact strict_lift (isStrict_ok v)
  | union name variants =>
    rw [read]
    have hvariants : ∀ x ∈ variants, (read x.2.2).Strict := fun x hx =>
      ih x.2.2 (List.mem_map_of_mem hx)
    exact strict_byte.bind fun tag => strict_readVariant hvariants name tag
  | enumeration decl =>
    rw [read]
    refine strict_byte.bind fun tag => ?_
    obtain ⟨found, hfound⟩ := hself tag
    rw [hfound]
    refine (strict_lift (isStrict_ok found)).bind fun found => ?_
    split
    · exact strict_pure _
    · exact strict_refuse _

/-! ## Whole byte strings -/

variable {c : Codec} (hchecked : c.Throughout Checked) (hsteady : c.Throughout Steady)

include hchecked hsteady

end Codec

end StrictContract
