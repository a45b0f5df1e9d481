import StrictContract.Codec.Declaration
import StrictContract.Proofs.Arrangement
import StrictContract.Proofs.Codec.Parts
import StrictContract.Proofs.Enumeration
import StrictContract.Proofs.Outcome

/-! # Construction — the codecs that the checked constructors give

A codec is **constructed** if every part of it comes from a checked constructor, or from one that has
nothing to check. What the checks establish holds throughout a constructed codec: tags are bytes and
ascend, names are not repeated, a wrapped struct has just one field. -/

namespace StrictContract

/-! ## The last items by key -/

section

variable {α κ : Type} [DecidableEq κ] {key : α → κ} {items : List α}

/-- The last items by key so far, newest first, with one more item. -/
def addLast (key : α → κ) (found : List α) (a : α) : List α :=
  if found.any (key · = key a) then found.map fun b => if key b = key a then a else b
  else a :: found

/-- Whatever is there after one more item was there before or is the item. -/
theorem mem_addLast {found : List α} {a b : α} (h : b ∈ addLast key found a) :
    b ∈ found ∨ b = a := by
  unfold addLast at h
  split at h
  · obtain ⟨c, hc, hb⟩ := List.mem_map.1 h
    split at hb
    · exact .inr hb.symm
    · exact .inl (hb ▸ hc)
  · exact (List.mem_cons.1 h).symm

/-- An item in the place of another one has the key of the other one. -/
theorem map_key_addLast_of_any {found : List α} {a : α} (h : found.any (key · = key a) = true) :
    (addLast key found a).map key = found.map key := by
  rw [addLast, if_pos h, List.map_map]
  refine List.map_congr_left fun b _ => ?_
  dsimp only [Function.comp_apply]
  split
  · rename_i hkey
    exact hkey.symm
  · rfl

/-- No key occurs twice after one more item. -/
theorem nodup_keys_addLast {found : List α} (h : (found.map key).Nodup) (a : α) :
    ((addLast key found a).map key).Nodup := by
  by_cases hany : found.any (key · = key a) = true
  · rwa [map_key_addLast_of_any hany]
  · rw [addLast, if_neg hany]
    refine List.nodup_cons.2 ⟨fun hmem => hany ?_, h⟩
    obtain ⟨b, hb, hkey⟩ := List.mem_map.1 hmem
    exact List.any_eq_true.2 ⟨b, hb, decide_eq_true hkey⟩

/-- The last items by key are among the items. -/
theorem mem_of_mem_lastByKey {b : α} (h : b ∈ lastByKey key items) : b ∈ items := by
  have hfold : ∀ found, b ∈ items.foldl (addLast key) found → b ∈ found ∨ b ∈ items := by
    clear h
    induction items with
    | nil => exact fun _ h => .inl h
    | cons a items ih =>
      intro found h
      rcases ih _ h with h | h
      · exact (mem_addLast h).imp_right fun hb : b = a => List.mem_cons.2 (.inl hb)
      · exact .inr (List.mem_cons_of_mem a h)
  exact (hfold [] (List.mem_reverse.1 h)).resolve_left List.not_mem_nil

/-- The keys of the last items by key come in the order in which they are given. -/
theorem sublist_keys_lastByKey : ((lastByKey key items).map key).Sublist (items.map key) := by
  -- new keys are put in front of those that were found
  have hfold : ∀ found, ∃ new : List κ, (items.foldl (addLast key) found).map key =
      new ++ found.map key ∧ new.reverse.Sublist (items.map key) := by
    induction items with
    | nil => exact fun found => ⟨[], rfl, .slnil⟩
    | cons a items ih =>
      intro found
      obtain ⟨new, hkeys, hsub⟩ := ih (addLast key found a)
      by_cases hany : found.any (key · = key a) = true
      · rw [map_key_addLast_of_any hany] at hkeys
        exact ⟨new, hkeys, hsub.cons _⟩
      · have hfront : addLast key found a = a :: found := if_neg hany
        refine ⟨new ++ [key a], ?_, ?_⟩
        · rw [List.foldl_cons, hkeys, hfront, List.append_assoc]
          rfl
        · rw [List.reverse_append]
          exact hsub.cons_cons _
  obtain ⟨new, hkeys, hsub⟩ := hfold []
  rw [List.map_nil, List.append_nil] at hkeys
  rw [lastByKey, List.map_reverse]
  exact hkeys ▸ hsub

/-- The last items by key have different keys. -/
theorem nodup_keys_lastByKey : ((lastByKey key items).map key).Nodup := by
  have hfold : ∀ found, (found.map key).Nodup →
      ((items.foldl (addLast key) found).map key).Nodup := by
    induction items with
    | nil => exact fun _ h => h
    | cons a items ih => exact fun found h => ih _ (nodup_keys_addLast h a)
  rw [lastByKey, List.map_reverse]
  exact (List.reverse_perm _).nodup_iff.2 (hfold [] .nil)

end

/-! ## Checked bounds -/

/-- Bounds are those of their own ends. -/
theorem Bounds.of?_min_max (b : Bounds) : Bounds.of? b.min b.max = .ok b := by
  have hordered : (0 : Int) ≤ b.min ∧ (b.min : Int) ≤ b.max :=
    ⟨Int.natCast_nonneg _, Int.ofNat_le.2 b.ordered⟩
  have hsmall : (b.max : Int) ≤ 0xffffffff := Int.ofNat_le.2 b.small
  rw [of?, dif_pos hordered, dif_pos hsmall]
  rfl

/-- Bounds in order that are small enough are checked. -/
theorem Bounds.exists_of? {min max : Nat} (h : min ≤ max ∧ max ≤ 0xffffffff) :
    ∃ b, Bounds.of? min max = .ok b :=
  ⟨⟨min, max, h.1, h.2⟩, of?_min_max ⟨min, max, h.1, h.2⟩⟩

/-- Refuses a declared record type that cannot have its fields. -/
def StructForm.check : StructForm → Except Failure Unit
  | .declared type => type.check
  | _ => .ok ()

namespace Codec

/-! ## Constructed codecs -/

/-- A **constructed** codec: one that a checked constructor gives for constructed parts. A declared
record type has the fields of its struct. -/
inductive Constructed : Codec → Prop
  | unit : Constructed unit
  | bool : Constructed bool
  | unicode : Constructed unicode
  | uint {bits : Int} {c : Codec} (h : uint? bits = .ok c) : Constructed c
  | sint {bits : Int} {c : Codec} (h : sint? bits = .ok c) : Constructed c
  | byteArray {size : Int} {c : Codec} (h : byteArray? size = .ok c) : Constructed c
  | id (kind : IdKind) : Constructed (id kind)
  | bytes (b : Bounds) (label : Option String) : Constructed (bytes b label)
  | ascii (first rest : Charset) (b : Bounds) (label : Option String) :
      Constructed (ascii first rest b label)
  | list {item : Codec} (hitem : Constructed item) (b : Bounds) (label : Option String) :
      Constructed (list item b label)
  | set {item : Codec} (hitem : Constructed item) (b : Bounds) (form : SetForm)
      (label : Option String) : Constructed (set item b form label)
  | map {key value : Codec} (hkey : Constructed key) (hvalue : Constructed value) (b : Bounds)
      (form : MapForm) (label : Option String) : Constructed (map key value b form label)
  | array {item c : Codec} {count : Int} (hitem : Constructed item)
      (h : array? item count = .ok c) : Constructed c
  | option {inner c : Codec} (hinner : Constructed inner) (h : option? inner = .ok c) :
      Constructed c
  | tuple {items : List Codec} (hitems : ∀ c ∈ items, Constructed c) : Constructed (tuple items)
  | struct {name : String} {fields : List (String × Codec × Bool)} {form : StructForm}
      {wrapped : Bool} {c : Codec} (hfields : ∀ f ∈ fields, Constructed f.2.1)
      (hform : ∀ type, form = .declared type → type.fields = fields.map Prod.fst)
      (h : struct? name fields form wrapped = .ok c) : Constructed c
  | union {name : String} {variants : List (Int × String × Codec)} {c : Codec}
      (hvariants : ∀ x ∈ variants, Constructed x.2.2) (h : union? name variants = .ok c) :
      Constructed c
  | enumeration {name : String} {entries : List (String × Int)} {decl : Enumeration}
      (h : Enumeration.of? name entries = .ok decl) (serial : Nat) :
      Constructed (enumeration { decl with serial })

/-- What the checks establish for a single codec, beyond what holds of all checked codecs: the
fields of structs and the variants of unions have different names, a declared record type has the
fields of its struct, and what is optional is neither optional itself nor null. -/
def Distinct : Codec → Prop
  | option inner => inner ≠ unit ∧ ∀ c, inner ≠ option c
  | struct _ fields form _ => (fields.map Prod.fst).Nodup ∧
      ∀ type, form = .declared type → type.fields = fields.map Prod.fst ∧ type.check = .ok ()
  | union _ variants => variants ≠ [] ∧ (variants.map fun x => x.2.1).Nodup
  | _ => True

/-! ### What each constructor gives -/

/-- A loop that refuses some items succeeds when none of them is there. -/
theorem forIn_unless_eq_ok {α : Type} {P : α → Prop} [DecidablePred P] {e : α → Failure}
    {xs : List α} {u : PUnit} :
    (forIn xs PUnit.unit fun x _ => if P x then do
        (Except.error (e x) : Except Failure Unit)
        pure (ForInStep.yield PUnit.unit)
      else pure (ForInStep.yield PUnit.unit)) = Except.ok u ↔ ∀ x ∈ xs, ¬ P x := by
  induction xs with
  | nil => simp [pure, Except.pure]
  | cons x xs ih =>
    rw [List.forIn_cons, List.forall_mem_cons]
    by_cases hx : P x
    · rw [if_pos hx]
      refine iff_of_false (fun h => ?_) fun h => h.1 hx
      cases h
    · rw [if_neg hx, and_iff_right hx]
      exact ih

/-- The tags of a checked enumeration are bytes. -/
theorem tags_of_enumeration {name : String} {entries : List (String × Int)} {decl : Enumeration}
    (h : Enumeration.of? name entries = .ok decl) : ∀ x ∈ decl.names, x.2 < 256 := by
  unfold Enumeration.of? at h
  obtain ⟨_, -, h⟩ := bind_eq_ok.1 h
  dsimp only at h
  split at h
  · obtain ⟨_, hreject, -⟩ := bind_eq_ok.1 h
    cases hreject
  · obtain ⟨_, -, h⟩ := bind_eq_ok.1 h
    obtain ⟨-, h⟩ := unless_eq_ok.1 h
    obtain ⟨_, htags, h⟩ := bind_eq_ok.1 h
    cases h
    have hbytes := forIn_unless_eq_ok.1 htags
    generalize (entries.partition fun x => isAttributeName name x.1).2 = members at hbytes ⊢
    refine List.forall_mem_map.2 fun m hm => ?_
    have hkeys : m.2 ∈ (firstByKey Prod.snd members).map Prod.snd :=
      mem_keys_firstByKey.2 (List.mem_map_of_mem hm)
    obtain ⟨x, hx, htag⟩ := List.mem_map.1 hkeys
    have hx := Decidable.of_not_not (hbytes x hx)
    dsimp only
    omega

/-- A checked optional codec is optional for what is neither optional nor null. -/
theorem option?_eq_ok {inner c : Codec} :
    option? inner = .ok c ↔ c = option inner ∧ inner ≠ unit ∧ ∀ d, inner ≠ option d := by
  cases inner <;> simp [option?, eq_comm (a := c), reject]

/-- A field under its codec, which is made optional where that is asked for. -/
def chosen (f : String × Codec × Bool) : Except Failure (String × Codec) := do
  return (f.1, ← if f.2.2 then option? f.2.1 else .ok f.2.1)

/-- A field keeps its name, and its codec unless that is made optional. -/
theorem chosen_eq_ok {f : String × Codec × Bool} {g : String × Codec} :
    chosen f = .ok g ↔ g.1 = f.1 ∧
      (f.2.2 = true ∧ option? f.2.1 = .ok g.2 ∨ f.2.2 = false ∧ g.2 = f.2.1) := by
  obtain ⟨name, c, optional⟩ := f
  obtain ⟨name', c'⟩ := g
  cases optional with
  | false =>
    have hself : chosen (name, c, false) = .ok (name, c) := rfl
    simp [hself, eq_comm]
  | true =>
    have hoption : chosen (name, c, true) = do return (name, ← option? c) := rfl
    rw [hoption, bind_eq_ok]
    simp only [pure_eq_ok, Prod.mk.injEq]
    constructor
    · rintro ⟨d, hd, rfl, rfl⟩
      exact ⟨rfl, .inl ⟨trivial, hd⟩⟩
    · rintro ⟨rfl, ⟨-, hd⟩ | ⟨h, -⟩⟩
      · exact ⟨c', hd, rfl, rfl⟩
      · cases h

/-- The fields of a checked struct are those given, some of them made optional. -/
theorem struct?_eq_ok {name : String} {fields : List (String × Codec × Bool)} {form : StructForm}
    {wrapped : Bool} {c : Codec} (h : struct? name fields form wrapped = .ok c) :
    (∀ type, form = .declared type → type.check = .ok ()) ∧ (fields.map Prod.fst).Nodup ∧
      (wrapped = true → fields.length = 1) ∧
      ∃ xs : List ((String × Codec × Bool) × Codec), fields = xs.map Prod.fst ∧
        (∀ x ∈ xs, x.1.2.2 = true ∧ option? x.1.2.1 = .ok x.2 ∨
          x.1.2.2 = false ∧ x.2 = x.1.2.1) ∧
        c = struct name (xs.map fun x => (x.1.1, x.2)) form wrapped := by
  have hsplit : struct? name fields form wrapped = do
      form.check
      if ¬ (fields.map Prod.fst).Nodup then reject (.duplicateFields name)
      if wrapped && fields.length != 1 then reject (.wrappedArity name)
      return struct name (← fields.mapM chosen) form wrapped := by
    cases form <;> rfl
  rw [hsplit] at h
  obtain ⟨_, hform, h⟩ := bind_eq_ok.1 h
  obtain ⟨hnames, h⟩ := unless_eq_ok.1 h
  obtain ⟨hwrapped, h⟩ := unless_eq_ok.1 h
  obtain ⟨codecs, hcodecs, h⟩ := bind_eq_ok.1 h
  cases h
  obtain ⟨ps, rfl, rfl, hps⟩ := mapM_eq_ok.1 hcodecs
  refine ⟨?_, Decidable.of_not_not hnames, ?_, ps.map fun q => (q.1, q.2.2), ?_, ?_, ?_⟩
  · rintro type rfl
    exact hform
  · intro hw
    rw [hw] at hwrapped
    simpa using hwrapped
  · rw [List.map_map]
    rfl
  · refine List.forall_mem_map.2 fun q hq => ?_
    exact (chosen_eq_ok.1 (hps q hq)).2
  · rw [List.map_map]
    refine congrArg (struct name · form wrapped) (List.map_congr_left fun q hq => ?_)
    exact Prod.ext (chosen_eq_ok.1 (hps q hq)).1 rfl

/-- The variants of a checked union are among those given, in ascending order of their tags. -/
theorem union?_eq_ok {name : String} {variants : List (Int × String × Codec)} {c : Codec}
    (h : union? name variants = .ok c) :
    ∃ xs : List (Nat × String × Codec), c = union name xs ∧ xs ≠ [] ∧
      (xs.map fun x => x.2.1).Nodup ∧ (∀ x ∈ xs, x.1 < 256) ∧
      xs.Pairwise (fun x y => x.1 < y.1) ∧ ∀ x ∈ xs, ((x.1 : Int), x.2) ∈ variants := by
  unfold union? at h
  obtain ⟨hne, h⟩ := unless_eq_ok.1 h
  obtain ⟨hnames, h⟩ := unless_eq_ok.1 h
  obtain ⟨_, htags, h⟩ := bind_eq_ok.1 h
  cases h
  have hbytes := forIn_unless_eq_ok.1 htags
  have hmem : ∀ x ∈ lastByKey Prod.fst variants, x ∈ variants := fun x => mem_of_mem_lastByKey
  have hkeys : ((lastByKey Prod.fst variants).map Prod.fst).Nodup := nodup_keys_lastByKey
  generalize lastByKey Prod.fst variants = distinct at *
  -- tags are bytes, so they stay different when they are taken for natural numbers
  have hnat : ∀ x ∈ distinct, (x.1.toNat : Int) = x.1 ∧ x.1.toNat < 256 := by
    intro x hx
    have hbyte := Decidable.of_not_not (hbytes x hx)
    omega
  have htoNat : ((distinct.map fun x => (x.1.toNat, x.2.1, x.2.2)).map Prod.fst).Nodup := by
    rw [List.map_map]
    refine List.pairwise_map.2 ((List.pairwise_map.1 hkeys).imp_of_mem ?_)
    intro x y hx hy hxy heq
    have hx := (hnat x hx).1
    have hy := (hnat y hy).1
    exact hxy (by dsimp only [Function.comp_apply] at heq; omega)
  have hperm := List.mergeSort_perm (distinct.map fun x => (x.1.toNat, x.2.1, x.2.2))
    fun a b => decide (a.1 ≤ b.1)
  refine ⟨_, rfl, ?_, ?_, ?_, ?_, ?_⟩
  · intro hnil
    rw [hnil] at hperm
    exact hne (List.isEmpty_iff.2 (List.map_eq_nil_iff.1 (List.nil_perm.1 hperm)))
  · refine (hperm.map fun x => x.2.1).nodup_iff.2 ?_
    rw [List.map_map]
    exact Decidable.of_not_not hnames
  · intro x hx
    obtain ⟨y, hy, rfl⟩ := List.mem_map.1 (hperm.mem_iff.1 hx)
    exact (hnat y hy).2
  · exact pairwise_lt_mergeSort Prod.fst htoNat
  · intro x hx
    obtain ⟨y, hy, rfl⟩ := List.mem_map.1 (hperm.mem_iff.1 hx)
    dsimp only
    rw [(hnat y hy).1]
    exact hmem y hy

/-! ### What holds throughout -/

/-- A checked unsigned integer codec has a number of bytes. -/
theorem uint?_eq_ok {bits : Int} {c : Codec} (h : uint? bits = .ok c) :
    c = uint (bits.toNat / 8) := by
  unfold uint? at h
  split at h
  · exact (Except.ok.inj h).symm
  · cases h

/-- A checked signed integer codec has a number of bytes. -/
theorem sint?_eq_ok {bits : Int} {c : Codec} (h : sint? bits = .ok c) :
    c = sint (bits.toNat / 8) := by
  unfold sint? at h
  split at h
  · exact (Except.ok.inj h).symm
  · cases h

/-- A checked codec of byte strings has their length. -/
theorem byteArray?_eq_ok {size : Int} {c : Codec} (h : byteArray? size = .ok c) :
    c = byteArray size.toNat := by
  unfold byteArray? at h
  split at h
  · cases h
  · exact (Except.ok.inj h).symm

/-- A checked codec of sequences has their items and their length. -/
theorem array?_eq_ok {item c : Codec} {count : Int} (h : array? item count = .ok c) :
    c = array item count.toNat := by
  unfold array? at h
  split at h
  · cases h
  · exact (Except.ok.inj h).symm

/-- What the constructors check holds throughout a constructed codec. -/
theorem Constructed.throughout {c : Codec} (h : c.Constructed) :
    c.Throughout fun s => s.Checked ∧ s.Distinct := by
  induction h with
  | unit | bool | unicode | id kind | bytes b label | ascii first rest b label =>
    exact .scalar ⟨trivial, trivial⟩ rfl
  | uint h =>
    obtain rfl := uint?_eq_ok h
    exact .scalar ⟨trivial, trivial⟩ rfl
  | sint h =>
    obtain rfl := sint?_eq_ok h
    exact .scalar ⟨trivial, trivial⟩ rfl
  | byteArray h =>
    obtain rfl := byteArray?_eq_ok h
    exact .scalar ⟨trivial, trivial⟩ rfl
  | list _ b label ih | set _ b form label ih =>
    exact .mk ⟨trivial, trivial⟩ (by simpa [children] using ih)
  | map _ _ b form label ihkey ihvalue =>
    exact .mk ⟨trivial, trivial⟩ (by simpa [children] using ⟨ihkey, ihvalue⟩)
  | array _ h ih =>
    obtain rfl := array?_eq_ok h
    exact .mk ⟨trivial, trivial⟩ (by simpa [children] using ih)
  | option _ h ih =>
    obtain ⟨rfl, hunit, hoption⟩ := option?_eq_ok.1 h
    exact .mk ⟨trivial, hunit, hoption⟩ (by simpa [children] using ih)
  | tuple _ ih => exact .mk ⟨trivial, trivial⟩ ih
  | @struct name fields form wrapped c _ hform h ih =>
    obtain ⟨hcheck, hnames, hwrapped, xs, rfl, hxs, rfl⟩ := struct?_eq_ok h
    rw [List.map_map] at hnames
    refine .mk ⟨?_, ?_, ?_⟩ ?_
    · cases wrapped with
      | false => trivial
      | true => simpa [Checked] using hwrapped rfl
    · rw [List.map_map]
      exact hnames
    · intro type htype
      refine ⟨?_, hcheck type htype⟩
      rw [hform type htype, List.map_map, List.map_map]
      rfl
    · -- a field keeps its codec, or has the optional one that was made of it
      refine List.forall_mem_map.2 (List.forall_mem_map.2 fun x hx => ?_)
      have hinner := ih x.1 (List.mem_map_of_mem hx)
      rcases hxs x hx with ⟨-, hoption⟩ | ⟨-, hsame⟩
      · obtain ⟨hc, hunit, hoption⟩ := option?_eq_ok.1 hoption
        dsimp only
        rw [hc]
        exact .mk ⟨trivial, hunit, hoption⟩ (by simpa [children] using hinner)
      · dsimp only
        rw [hsame]
        exact hinner
  | union _ h ih =>
    obtain ⟨xs, rfl, hne, hnames, hbytes, hascend, hmem⟩ := union?_eq_ok h
    refine .mk ⟨⟨hbytes, hascend⟩, hne, hnames⟩ (List.forall_mem_map.2 fun x hx => ?_)
    exact ih _ (hmem x hx)
  | enumeration h serial =>
    have htags := tags_of_enumeration h
    exact .scalar ⟨htags, trivial⟩ rfl

/-- Constructed codecs are checked throughout. -/
theorem Constructed.checked {c : Codec} (h : c.Constructed) : c.Throughout Checked :=
  fun s hs => (h.throughout s hs).1

/-- Names are different throughout a constructed codec. -/
theorem Constructed.distinct {c : Codec} (h : c.Constructed) : c.Throughout Distinct :=
  fun s hs => (h.throughout s hs).2

end Codec

end StrictContract
