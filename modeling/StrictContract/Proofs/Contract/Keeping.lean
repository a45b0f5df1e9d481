import StrictContract.Contract.Stash
import StrictContract.Proofs.Contract.Accepted

/-! # Keeping — what one record does to a stash

A stash keeps the **records** of a consignment one by one: its schema, its types, its genesis, its
bundles with their witnesses and its script libraries. Keeping a record never gives up another one,
and tells whether the id of the record is new. -/

namespace StrictContract

/-! ## Merging views -/

/-- Views of one witness are merged into one of them: the one that stands unless only the other has the
full transaction. -/
theorem Witness.merge_eq_ok {a b c : Witness} : a.merge b = .ok c ↔ a.witnessId = b.witnessId ∧
    c = if a.raw?.isNone && b.raw?.isSome then b else a := by
  rw [merge]
  by_cases hid : a.witnessId = b.witnessId
  · rw [if_neg (not_not_intro hid), Except.ok.injEq, eq_comm, and_iff_right hid]
  · rw [if_pos hid]
    exact ⟨nofun, fun h => absurd h.1 hid⟩

/-- Views of one bundle are merged when they have the same input map; then the merged view reveals
what either reveals. -/
theorem Bundle.merge_eq_ok {a b c : Bundle} : a.merge b = .ok c ↔ a.inputMap.same b.inputMap = true ∧
    c = { a with known := b.known.entries.foldl (fun t e => t.putNew e.1 e.2) a.known } := by
  rw [merge]
  by_cases hsame : a.inputMap.same b.inputMap = true
  · rw [if_pos hsame, and_iff_right hsame, eq_comm]
    exact pure_eq_ok
  · rw [if_neg hsame]
    simp only [bind_eq_ok, reduceCtorEq, and_false, exists_false, hsame, false_and]

/-! ## Records -/

/-- A **record** that a stash keeps. -/
inductive Record where
  | schema (x : Schema)
  | types (x : TypeSystem)
  | genesis (x : Genesis)
  | bundle (x : Bundle)
  | witness (x : Witness)
  | library (code : Octets)

/-- The records of a consignment in the order in which they are kept. -/
def ValidConsignment.records (v : ValidConsignment) : List Record :=
  [.schema v.consignment.schema, .types v.consignment.types, .genesis v.consignment.genesis] ++
    v.consignment.bundles.flatMap (fun w => [.bundle w.bundle, .witness w.witness]) ++
    v.consignment.scripts.map .library

namespace Stash

variable {s t u : Stash}

/-! ## What a call does -/

/-- A pair as the result of a pure step. -/
theorem pure_pair_eq_ok {α β : Type} {a a' : α} {b b' : β} :
    (pure (a, b) : Except Failure (α × β)) = .ok (a', b') ↔ a' = a ∧ b' = b := by
  rw [pure_eq_ok, Prod.mk.injEq, eq_comm, @eq_comm _ b]

/-- A schema is kept when it has an id and none with this id is known. -/
theorem replaceSchema_eq_ok {x : Schema} {new : Bool} : s.replaceSchema x = .ok (new, t) ↔
    ∃ id, x.schemaId = .ok id ∧ new = !s.schemata.contains id ∧
      t = { s with schemata := s.schemata.putNew id x } := by
  simp only [replaceSchema, bind_eq_ok, pure_pair_eq_ok]

/-- A genesis is kept in place of the one with the same id. -/
theorem replaceGenesis_eq_ok {x : Genesis} {new : Bool} : s.replaceGenesis x = .ok (new, t) ↔
    ∃ id, x.contractId = .ok id ∧ new = !s.geneses.contains id ∧
      t = { s with geneses := s.geneses.put id x } := by
  simp only [replaceGenesis, bind_eq_ok, pure_pair_eq_ok]

/-- A record is **absorbed** as itself when none is known under its id, and else as what the known one
and it are merged to. -/
def Absorbed {α : Type} (merge : α → α → Except Failure α) (known? : Option α) (x y : α) : Prop :=
  match known? with
  | none => y = x
  | some known => merge known x = .ok y

/-- A bundle is absorbed under its id. -/
theorem replaceBundle_eq_ok {x : Bundle} {new : Bool} : s.replaceBundle x = .ok (new, t) ↔
    ∃ id, x.bundleId = .ok id ∧ new = !s.bundles.contains id ∧
      ∃ y, Absorbed Bundle.merge (s.bundles.get? id) x y ∧
        t = { s with bundles := s.bundles.put id y } := by
  rw [replaceBundle, bind_eq_ok]
  refine exists_congr fun id => and_congr_right fun _ => ?_
  rw [Table.contains]
  cases s.bundles.get? id with
  | none => simp [Absorbed, pure_pair_eq_ok]
  | some known =>
    simp only [Absorbed, bind_eq_ok, pure_pair_eq_ok, Option.isSome_some, Bool.not_true, and_left_comm,
      exists_and_left]

/-- A witness is absorbed under its id. -/
theorem replaceWitness_eq_ok {x : Witness} {new : Bool} : s.replaceWitness x = .ok (new, t) ↔
    new = !s.witnesses.contains x.witnessId ∧
      ∃ y, Absorbed Witness.merge (s.witnesses.get? x.witnessId) x y ∧
        t = { s with witnesses := s.witnesses.put x.witnessId y } := by
  rw [replaceWitness, Table.contains]
  cases s.witnesses.get? x.witnessId with
  | none => simp [Absorbed, pure_pair_eq_ok]
  | some known =>
    simp only [Absorbed, bind_eq_ok, pure_pair_eq_ok, Option.isSome_some, Bool.not_true, and_left_comm,
      exists_and_left]

/-- The types of a stash are replaced by what they are merged with, unless that fails. -/
theorem consumeTypes_eq (s : Stash) (types : TypeSystem) :
    s.consumeTypes types = match TypeSystem.Growth.merge types s.types with
      | (.ok _, merged) => .ok { s with types := merged }
      | (.error f, _) => .error f :=
  rfl

/-- Types are kept by merging them. -/
theorem consumeTypes_eq_ok {types : TypeSystem} : s.consumeTypes types = .ok t ↔
    ∃ n merged, TypeSystem.Growth.merge types s.types = (.ok n, merged) ∧
      t = { s with types := merged } := by
  rw [consumeTypes_eq]
  rcases TypeSystem.Growth.merge types s.types with ⟨_ | n, merged⟩
  · constructor
    · intro h
      cases h
    · rintro ⟨_, _, h, -⟩
      cases h
  · constructor
    · intro h
      cases h
      exact ⟨n, merged, rfl, rfl⟩
    · rintro ⟨_, _, h, rfl⟩
      cases h
      rfl

/-! ## Keeping records one by one -/

/-- Keeps a record. -/
def keep (s : Stash) : Record → Except Failure Stash
  | .schema x => Prod.snd <$> s.replaceSchema x
  | .types x => s.consumeTypes x
  | .genesis x => Prod.snd <$> s.replaceGenesis x
  | .bundle x => Prod.snd <$> s.replaceBundle x
  | .witness x => Prod.snd <$> s.replaceWitness x
  | .library code => .ok (s.replaceLibrary code).2

/-- Bundles and their witnesses are kept one by one. -/
theorem foldlM_consumeBundle (ws : List WitnessBundle) (n : Nat) (s : Stash) :
    Prod.snd <$> ws.foldlM consumeBundle (n, s) =
      (ws.flatMap fun w => [.bundle w.bundle, .witness w.witness]).foldlM keep s := by
  induction ws generalizing n s with
  | nil => rfl
  | cons w ws ih =>
    simp only [map_eq_pure_bind] at ih
    simp only [List.flatMap_cons, List.cons_append, List.nil_append, List.foldlM_cons, consumeBundle,
      keep, ih, map_eq_pure_bind, bind_assoc, pure_bind]

/-- Script libraries are kept one by one. -/
theorem foldlM_library (codes : List Octets) (s : Stash) :
    (codes.map Record.library).foldlM keep s =
      .ok (codes.foldl (fun s code => (s.replaceLibrary code).2) s) := by
  induction codes generalizing s with
  | nil => rfl
  | cons code codes ih =>
    rw [List.map_cons, List.foldlM_cons, List.foldl_cons, ← ih]
    rfl

/-- A consignment is consumed by keeping its records one by one. -/
theorem consume_eq (s : Stash) (v : ValidConsignment) :
    Prod.snd <$> s.consume v = v.records.foldlM keep s := by
  simp only [consume, ValidConsignment.records, List.foldlM_append, List.foldlM_cons, List.foldlM_nil,
    keep, ← foldlM_consumeBundle _ 0, foldlM_library, map_eq_pure_bind, bind_assoc, pure_bind]
  rfl

/-! ## What is new -/

/-- A record is **replaced** in a stash: the call for its kind gives the next stash and tells whether
the record is new. Types are merged without a word about them. -/
def Replaces (s : Stash) (r : Record) (new : Bool) (t : Stash) : Prop :=
  match r with
  | .schema x => s.replaceSchema x = .ok (new, t)
  | .types _ => False
  | .genesis x => s.replaceGenesis x = .ok (new, t)
  | .bundle x => s.replaceBundle x = .ok (new, t)
  | .witness x => s.replaceWitness x = .ok (new, t)
  | .library code => s.replaceLibrary code = (new, t)

/-- A stash **lacks** a record when it keeps none under the id of the record. -/
def Lacks (s : Stash) : Record → Prop
  | .schema x => ∃ id, x.schemaId = .ok id ∧ s.schemata.contains id = false
  | .types x => ∃ e ∈ x.entries, s.types.contains e.1 = false
  | .genesis x => ∃ id, x.contractId = .ok id ∧ s.geneses.contains id = false
  | .bundle x => ∃ id, x.bundleId = .ok id ∧ s.bundles.contains id = false
  | .witness x => s.witnesses.contains x.witnessId = false
  | .library code => s.libraries.contains (libraryId code) = false

/-- Replacing a record tells whether the stash lacked it. -/
theorem new_iff_lacks {r : Record} {new : Bool} (h : s.Replaces r new t) :
    new = true ↔ s.Lacks r := by
  have key : ∀ {α : Type} {x : Except Failure α} {id : α} {known : α → Bool}, x = .ok id →
      ((!known id) = true ↔ ∃ i, x = .ok i ∧ known i = false) := by
    rintro α _ id known rfl
    simp
  cases r with
  | schema x =>
    obtain ⟨id, hid, rfl, -⟩ := replaceSchema_eq_ok.1 h
    exact key hid
  | types x => exact h.elim
  | genesis x =>
    obtain ⟨id, hid, rfl, -⟩ := replaceGenesis_eq_ok.1 h
    exact key hid
  | bundle x =>
    obtain ⟨id, hid, rfl, -⟩ := replaceBundle_eq_ok.1 h
    exact key hid
  | witness x =>
    obtain ⟨rfl, -⟩ := replaceWitness_eq_ok.1 h
    exact iff_of_eq (Bool.not_eq_true' _)
  | library code =>
    obtain ⟨rfl, -⟩ := Prod.ext_iff.1 h
    exact iff_of_eq (Bool.not_eq_true' _)

/-! ## Nothing is given up -/

/-- A stash **extends** another one when it has all that the other has: every record, every revealed
transition, every full transaction and every seal of the wallet. -/
structure Extends (t s : Stash) : Prop where
  schemata : ∀ id x, s.schemata.get? id = some x → t.schemata.get? id = some x
  geneses : ∀ id, s.geneses.contains id = true → t.geneses.contains id = true
  libraries : ∀ id, s.libraries.contains id = true → t.libraries.contains id = true
  types : s.types.Extends t.types
  bundles : ∀ id b, s.bundles.get? id = some b → ∃ b', t.bundles.get? id = some b' ∧
    b'.inputMap = b.inputMap ∧ ∀ opId x, b.known.get? opId = some x → b'.known.get? opId = some x
  witnesses : ∀ id w, s.witnesses.get? id = some w → ∃ w', t.witnesses.get? id = some w' ∧
    ∀ raw, w.raw? = some raw → w'.raw? = some raw
  seals : t.seals = s.seals

namespace Extends

theorem refl (s : Stash) : s.Extends s where
  schemata := fun _ _ h => h
  geneses := fun _ h => h
  libraries := fun _ h => h
  types := .refl _
  bundles := fun _ b h => ⟨b, h, rfl, fun _ _ h => h⟩
  witnesses := fun _ w h => ⟨w, h, fun _ h => h⟩
  seals := rfl

theorem trans (h : u.Extends t) (h' : t.Extends s) : u.Extends s where
  schemata := fun id x hx => h.schemata id x (h'.schemata id x hx)
  geneses := fun id hid => h.geneses id (h'.geneses id hid)
  libraries := fun id hid => h.libraries id (h'.libraries id hid)
  types := h'.types.trans h.types
  bundles := by
    intro id b hb
    obtain ⟨b', hb', hmap, hknown⟩ := h'.bundles id b hb
    obtain ⟨b'', hb'', hmap', hknown'⟩ := h.bundles id b' hb'
    exact ⟨b'', hb'', hmap'.trans hmap, fun opId x hx => hknown' opId x (hknown opId x hx)⟩
  witnesses := by
    intro id w hw
    obtain ⟨w', hw', hraw⟩ := h'.witnesses id w hw
    obtain ⟨w'', hw'', hraw'⟩ := h.witnesses id w' hw'
    exact ⟨w'', hw'', fun raw hr => hraw' raw (hraw raw hr)⟩
  seals := h.seals.trans h'.seals

end Extends

/-- What is absorbed leaves something under every id, which goes beyond what was there if merging does
so. -/
theorem Absorbed.exists_get?_put {κ α : Type} [DecidableEq κ] {merge : α → α → Except Failure α}
    {records : Table κ α} {id : κ} {x y : α} (h : Absorbed merge (records.get? id) x y)
    {R : α → α → Prop} (hrefl : ∀ a, R a a) (hmerge : ∀ a, merge a x = .ok y → R a y) :
    ∀ i a, records.get? i = some a → ∃ b, (records.put id y).get? i = some b ∧ R a b := by
  intro i a ha
  rw [Table.get?_put]
  by_cases hi : i = id
  · subst hi
    rw [if_pos rfl]
    rw [ha] at h
    exact ⟨y, rfl, hmerge a h⟩
  · rw [if_neg hi]
    exact ⟨a, ha, hrefl a⟩

/-- Keeping a record gives up nothing. -/
theorem extends_of_keep {r : Record} (h : s.keep r = .ok t) : t.Extends s := by
  cases r with
  | schema x =>
    obtain ⟨⟨new, t⟩, hreplace, rfl⟩ := map_eq_ok.1 h
    obtain ⟨id, hid, -, rfl⟩ := replaceSchema_eq_ok.1 hreplace
    refine { Extends.refl s with schemata := fun id' x' hx' => ?_ }
    rw [Table.get?_putNew, hx', Option.some_or]
  | types x =>
    obtain ⟨n, merged, hmerged, rfl⟩ := consumeTypes_eq_ok.1 h
    exact { Extends.refl s with types := (TypeSystem.mergeEntries_eq_ok hmerged).1 }
  | genesis x =>
    obtain ⟨⟨new, t⟩, hreplace, rfl⟩ := map_eq_ok.1 h
    obtain ⟨id, hid, -, rfl⟩ := replaceGenesis_eq_ok.1 hreplace
    exact { Extends.refl s with geneses := fun id' => Table.contains_put_of_contains }
  | bundle x =>
    obtain ⟨⟨new, t⟩, hreplace, rfl⟩ := map_eq_ok.1 h
    obtain ⟨id, hid, -, merged, habsorbed, rfl⟩ := replaceBundle_eq_ok.1 hreplace
    refine { Extends.refl s with
      bundles := habsorbed.exists_get?_put (fun _ => ⟨rfl, fun _ _ h => h⟩) fun known hmerged => ?_ }
    obtain ⟨-, rfl⟩ := Bundle.merge_eq_ok.1 hmerged
    -- merging only adds transitions under ids that reveal none yet
    refine ⟨rfl, fun opId x' hx' => ?_⟩
    rw [Table.get?_foldl_putNew, hx', Option.some_or]
  | witness x =>
    obtain ⟨⟨new, t⟩, hreplace, rfl⟩ := map_eq_ok.1 h
    obtain ⟨-, merged, habsorbed, rfl⟩ := replaceWitness_eq_ok.1 hreplace
    refine { Extends.refl s with
      witnesses := habsorbed.exists_get?_put (fun _ _ h => h) fun known hmerged raw hraw => ?_ }
    obtain ⟨-, rfl⟩ := Witness.merge_eq_ok.1 hmerged
    -- a full transaction is never replaced
    rw [if_neg (by simp [hraw]), hraw]
  | library code =>
    obtain rfl := Except.ok.inj h
    exact { Extends.refl s with libraries := fun id' => Table.contains_put_of_contains }

/-- Keeping records gives up nothing. -/
theorem extends_of_foldlM_keep {rs : List Record} (h : rs.foldlM keep s = .ok t) : t.Extends s := by
  -- induction on the records: what the first one leaves is extended by the rest
  induction rs generalizing s with
  | nil =>
    cases h
    exact .refl _
  | cons r rs ih =>
    rw [List.foldlM_cons] at h
    obtain ⟨u, hu, h⟩ := bind_eq_ok.1 h
    exact (ih h).trans (extends_of_keep hu)

/-- Consuming a consignment gives up nothing. -/
theorem extends_of_consume {v : ValidConsignment} {n : Nat} (h : s.consume v = .ok (n, t)) :
    t.Extends s := by
  have hkept : v.records.foldlM keep s = .ok t := by
    rw [← consume_eq, h]
    rfl
  exact extends_of_foldlM_keep hkept

end Stash

end StrictContract
