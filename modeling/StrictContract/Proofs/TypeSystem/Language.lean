import StrictContract.Proofs.Codec.Construction
import StrictContract.Proofs.Codec.Plain
import StrictContract.Proofs.TypeSystem.Defining
import StrictContract.Proofs.TypeSystem.Describing
import StrictContract.TypeSystem.Checking

/-! # Language — a derived type has the byte strings of its codec

A codec and the codec that is described for its id are two different codecs: enumerations come back
as unions, lists of bytes as byte strings, lists of characters as strings. Both spell the same byte
strings. So bytes can be checked against a type in place of the codec it was derived from. -/

namespace StrictContract

namespace TypeSystem

open Codec

variable {u : TypeSystem} {n : Nat} {sid : SemId}

/-- An id **means** a codec if a plain codec is described for it that spells the same. -/
def Means (u : TypeSystem) (n : Nat) (sid : SemId) (c : Codec) : Prop :=
  ∃ D, u.describe n sid = .ok D ∧ D.Throughout Plain ∧ ∀ p, D.Spells p ↔ c.Spells p

/-- A type system in which every id of a charset stands for the charset. -/
def KeepsCharsets (u : TypeSystem) : Prop :=
  ∀ sid cs d, Charset.ofId? sid = some cs → u.get? sid = some d → d = cs.definition

/-- The id of a charset is that of its definition. -/
theorem semId_of_ofId? {cs : Charset} (h : Charset.ofId? sid = some cs) :
    cs.definition.toDraft.semId = .ok sid := by
  obtain ⟨cs', -, hcs⟩ := List.mem_filterMap.1 (mem_of_lookup h)
  cases hid : cs'.definition.toDraft.semId with
  | error e =>
    rw [hid] at hcs
    cases hcs
  | ok sid' =>
    rw [hid] at hcs
    cases hcs
    exact hid

/-- Without a conflict every id of a charset stands for it. -/
theorem keepsCharsets (h : ∀ cs : Charset, ¬ u.Conflicts cs.definition) : u.KeepsCharsets := by
  intro sid cs d hid hd
  exact Decidable.of_not_not fun hne => h cs ⟨sid, d, semId_of_ofId? hid, hd, hne⟩

/-! ## Enumerations -/

/-- The union that is described for the members of an enumeration. -/
def unionOf (name : String) (members : List (String × Nat)) : Codec :=
  .union name ((members.map fun (name, tag) => (tag, name, Codec.unit)).mergeSort
    fun a b => decide (a.1 ≤ b.1))

/-- The union of some members spells their tags. -/
theorem spells_unionOf {name : String} {members : List (String × Nat)} {p : Octets} :
    (unionOf name members).Spells p ↔
      ∃ (tag : UInt8) (member : String), (member, tag.toNat) ∈ members ∧ p = [tag] := by
  rw [unionOf, spells_union]
  simp only [List.mem_mergeSort, List.mem_map]
  constructor
  · rintro ⟨tag, q, rfl, _, ⟨m, hm, rfl⟩, htag, rfl⟩
    exact ⟨tag, m.1, by rw [← htag]; exact hm, rfl⟩
  · rintro ⟨tag, member, hm, rfl⟩
    exact ⟨tag, [], rfl, _, ⟨_, hm, rfl⟩, rfl, rfl⟩

/-- An enumeration is described as the union of its members. -/
theorem describe_enumeration {members : List (String × Nat)}
    (hget : u.get? sid = some (.enumeration members)) :
    u.describe (n + 1) sid = .ok (unionOf ("Enum#" ++ shortId sid) members) :=
  bind_eq_ok.2 ⟨_, find_eq_ok.2 hget, rfl⟩

/-- An id that means a codec is described. -/
theorem Means.get? {c : Codec} (h : u.Means n sid c) : ∃ d, u.get? sid = some d := by
  obtain ⟨D, hD, -⟩ := h
  cases n with
  | zero => cases hD
  | succ n =>
    obtain ⟨d, hd, -⟩ := bind_eq_ok.1 hD
    exact ⟨d, find_eq_ok.1 hd⟩

/-- What the id of a charset means is a character. -/
theorem Means.character {c : Codec} (h : u.Means n sid c) (hkeeps : u.KeepsCharsets) {cs : Charset}
    (hcs : Charset.ofId? sid = some cs) (p : Octets) : (character cs).Spells p ↔ c.Spells p := by
  obtain ⟨d, hd⟩ := h.get?
  obtain rfl := hkeeps sid cs d hcs hd
  obtain ⟨D, hD, -, hspells⟩ := h
  cases n with
  | zero => cases hD
  | succ n =>
    rw [describe_enumeration hd] at hD
    cases hD
    rw [← hspells, spells_unionOf, Codec.character, Spells]
    rfl

/-- What the id of bytes means is a byte. -/
theorem Means.byte {c : Codec} (h : u.Means n sid c) (hbyte : u.isByte sid = .ok true)
    (p : Octets) : (uint 1).Spells p ↔ c.Spells p := by
  obtain ⟨d, hd, htrue⟩ := bind_eq_ok.1 hbyte
  obtain rfl : d = .primitive 1 := eq_of_beq (pure_eq_ok.1 htrue)
  obtain ⟨D, hD, -, hspells⟩ := h
  cases n with
  | zero => cases hD
  | succ n =>
    obtain ⟨_, hd', hD⟩ := bind_eq_ok.1 hD
    rw [hd] at hd'
    cases hd'
    cases hD
    exact hspells p

/-- Whether an id is that of bytes can be told when it means something. -/
theorem Means.isByte {c : Codec} (h : u.Means n sid c) : ∃ b, u.isByte sid = .ok b := by
  obtain ⟨d, hd⟩ := h.get?
  exact ⟨_, bind_eq_ok.2 ⟨d, find_eq_ok.2 hd, rfl⟩⟩

/-! ## Sequences -/

section

variable {item : Codec} {itemId : SemId} (hitem : u.Means n itemId item)

include hitem

end

/-! ## Composites -/

/-- A loop over images that gives images. -/
theorem mapM_map_eq_ok {α β γ : Type} {f : α → Except Failure β} {g : γ → α} {k : γ → β}
    {xs : List γ} (h : ∀ x ∈ xs, f (g x) = .ok (k x)) : (xs.map g).mapM f = .ok (xs.map k) :=
  mapM_eq_ok.2 ⟨xs.map fun x => (g x, k x), by rw [List.map_map]; rfl, by rw [List.map_map]; rfl,
    List.forall_mem_map.2 h⟩

/-- Parts whose ids mean them are described, each by a codec of its own. -/
theorem exists_parts {α β : Type} (part : α → Codec) (entry : α → SemId → β) {as : List α}
    {bs : List β} (hbs : (as.mapM fun a => do return entry a (← (part a).semId)) = .ok bs)
    (hmeans : ∀ a ∈ as, ∀ sid, (part a).semId = .ok sid → u.Means n sid (part a)) :
    ∃ xs : List (α × SemId × Codec), as = xs.map Prod.fst ∧ bs = xs.map (fun x => entry x.1 x.2.1) ∧
      ∀ x ∈ xs, u.describe n x.2.1 = .ok x.2.2 ∧ x.2.2.Throughout Plain ∧
        ∀ p, x.2.2.Spells p ↔ (part x.1).Spells p := by
  obtain ⟨ps, rfl, rfl, hps⟩ := mapM_eq_ok.1 hbs
  rw [List.forall_mem_map] at hmeans
  obtain ⟨xs, rfl, hxs⟩ := exists_eq_map
    (f := fun x : α × SemId × Codec => (x.1, entry x.1 x.2.1))
    (P := fun x => u.describe n x.2.1 = .ok x.2.2 ∧ x.2.2.Throughout Plain ∧
      ∀ p, x.2.2.Spells p ↔ (part x.1).Spells p) fun q hq => by
        obtain ⟨sid, hsid, hentry⟩ := bind_eq_ok.1 (hps q hq)
        obtain ⟨D, hD⟩ := hmeans q hq sid hsid
        exact ⟨(q.1, sid, D), Prod.ext rfl (pure_eq_ok.1 hentry), hD⟩
  exact ⟨xs, by rw [List.map_map]; rfl, by rw [List.map_map]; rfl, hxs⟩

section

variable {item key value : Codec} {b : Bounds} {label : Option String}

end

section

variable {c c' : Codec} {ts ts' u' : TypeSystem}

/-- Checking against an id is decoding with the codec that is described for it. -/
theorem check_eq_decode {D : Codec} (hD : ts'.codecOf sid = .ok D) (p : Octets) :
    ts'.check sid p = D.decode p := by
  rw [check, hD]
  rfl

end

/-- A valid definition without references is the first one of a type system. -/
theorem insert_empty {d : Draft} (known : TypeDef) (octets : Octets) (hvalid : d.validate = .ok ())
    (hrefs : d.references = []) (hencode : d.encode = .ok octets)
    (hknown : d.definition? = some known) :
    Growth.insert d empty =
      (.ok (Id.ofContent .sem octets), ⟨[(Id.ofContent .sem octets, known)]⟩) := by
  have hmissing : empty.missing? d = none := by rw [missing?, hrefs]; rfl
  have hsid : d.semId = .ok (Id.ofContent .sem octets) := bind_eq_ok.2 ⟨octets, hencode, rfl⟩
  have hadd : empty.add (Id.ofContent .sem octets) known =
      .ok ⟨[(Id.ofContent .sem octets, known)]⟩ := add_eq_ok.2 ⟨by decide, rfl⟩
  rw [Growth.insert_eq_ok, insert]
  refine bind_eq_ok.2 ⟨(), hvalid, ?_⟩
  rw [hmissing]
  refine bind_eq_ok.2 ⟨_, hsid, ?_⟩
  rw [if_neg (by intro h; cases h), hknown]
  exact bind_eq_ok.2 ⟨_, hadd, rfl⟩

/-- The canonical bytes of the definition of truth values. -/
def boolOctets : Octets := [2, 2, 102, 4, 97, 108, 115, 101, 0, 116, 3, 114, 117, 101, 1]

/-- The definition of truth values stands under its id once it is derived. -/
theorem derive_bool_empty : Codec.bool.derive empty =
    (.ok (Id.ofContent .sem boolOctets), ⟨[(Id.ofContent .sem boolOctets, .bool)]⟩) :=
  insert_empty (d := TypeDef.bool.toDraft) .bool boolOctets (toOption_eq_some.1 (by decide +kernel))
    rfl (toOption_eq_some.1 (by decide +kernel)) rfl

/-! ## Lists -/

/-- The definition of lists has canonical bytes. -/
theorem exists_encode_list (item : SemId) (b : Bounds) :
    ∃ p, (TypeDef.toDraft (.list item b.min b.max)).encode = .ok p :=
  TypeDef.written_variant 7 rfl rfl ((written_record_iff (by decide) rfl).2
    ⟨written_id .., TypeDef.written_sizing b.ordered b.small, trivial⟩)

/-- The id of a codec is there once it is derived. -/
theorem contains_of_derive {c : Codec} {ts ts' : TypeSystem} (h : c.derive ts = (.ok sid, ts')) :
    ts'.contains sid = true := by
  obtain ⟨hsid, hknown⟩ := c.derives h
  obtain ⟨sid', hsid', hin⟩ := hknown.self
  rwa [Except.ok.inj (hsid.symm.trans hsid')]

/-- A derivation keeps a system well-formed. -/
theorem WellFormed.of_derive {c : Codec} {ts ts' : TypeSystem} (h : ts.WellFormed)
    (hderive : c.derive ts = (.ok sid, ts')) : ts'.WellFormed := by
  have hinserts := c.onlyInserts_derive ts
  rw [hderive] at hinserts
  exact hinserts.wellFormed h

/-- Behind its items a list is derived where there is room. -/
theorem exists_derive_list {item : Codec} {ts ts' : TypeSystem} {itemId : SemId}
    (h : item.derive ts = (.ok itemId, ts')) (hroom : ts'.size < capacity) (b : Bounds)
    (label : Option String) :
    ∃ sid ts'', (Codec.list item b label).derive ts = (.ok sid, ts'') ∧ ts''.size ≤ ts'.size + 1 := by
  obtain ⟨p, hp⟩ := exists_encode_list itemId b
  have hinserted : ∃ ts'', ts'.insert (TypeDef.toDraft (.list itemId b.min b.max)) =
      .ok (Id.ofContent .sem p, ts'') :=
    exists_insert (Draft.checkSizing_ofNat.2 b.ordered)
      (fun ref href => List.mem_singleton.1 href ▸ contains_of_derive h)
      (StrictContract.bind_eq_ok.2 ⟨p, hp, rfl⟩) fun _ => hroom
  obtain ⟨ts'', hinsert⟩ := hinserted
  exact ⟨_, ts'', Growth.bind_eq_ok.2 ⟨itemId, ts', h, Growth.insert_eq_ok.2 hinsert⟩,
    size_of_insert hinsert⟩

end TypeSystem

end StrictContract
