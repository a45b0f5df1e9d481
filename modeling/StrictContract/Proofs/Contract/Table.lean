import StrictContract.Contract.Operation
import StrictContract.Proofs.Codec.Readable
import StrictContract.Proofs.Codec.Recovery
import StrictContract.Proofs.Table

/-! # Tables as mappings — reading and writing what is kept by key

A table is written as the mapping of its entries. Since different keys have different encodings, a
mapping that is read has each key once and is that of a table. -/

namespace StrictContract

variable {κ α : Type}

/-- The mapping of a table, by the values of its keys and of what is kept under them. -/
def Table.mapping (f : κ → Value) (g : α → Value) (t : Table κ α) : Value :=
  .map (t.entries.map fun e => (f e.1, g e.2))

/-- Items are taken back from their images. -/
theorem mapM_map_eq_some {β : Type} {f : α → β} {h : β → Option α} (hf : ∀ a, h (f a) = some a)
    (xs : List α) : (xs.map f).mapM h = some xs := by
  induction xs with
  | nil => rfl
  | cons x xs ih =>
    rw [List.map_cons, List.mapM_cons, hf, ih]
    rfl

/-- The table of the entries that are taken back from a mapping is the table that was written. -/
theorem Table.ofValue?_toValue {g : α → Value} {h : Value → Option α}
    (hg : ∀ a, h (g a) = some a) (t : Table Int α) : Table.ofValue? h (t.toValue g) = some t := by
  have hentries := mapM_map_eq_some (f := fun e : Int × α => (Value.int e.1, g e.2))
    (h := fun e : Value × Value => do return (← e.1.int?, ← h e.2)) (by simp [Value.int?, hg])
    t.entries
  show (do return Table.ofList (← (t.entries.map fun e => (Value.int e.1, g e.2)).mapM
    fun e : Value × Value => do return (← e.1.int?, ← h e.2))) = some t
  rw [hentries]
  exact congrArg some t.ofList_entries

/-- Tables with related values under every key pair up, entry by entry. -/
theorem Table.exists_pairs [DecidableEq κ] {R : α → α → Prop} {t u : Table κ α}
    (h : ∀ k, Option.Rel R (t.get? k) (u.get? k)) : ∃ xs : List ((κ × α) × (κ × α)),
      t.entries = xs.map Prod.fst ∧ u.entries.Perm (xs.map Prod.snd) ∧
        ∀ x ∈ xs, x.1.1 = x.2.1 ∧ R x.1.2 x.2.2 := by
  have hpartner : ∀ e ∈ t.entries, ∃ x : (κ × α) × (κ × α), x.1 = e ∧
      x.2 ∈ u.entries ∧ x.1.1 = x.2.1 ∧ R x.1.2 x.2.2 := by
    rintro ⟨k, a⟩ he
    have hk := h k
    rw [mem_entries.1 he] at hk
    generalize hb : u.get? k = found at hk
    obtain ⟨hab⟩ := hk
    exact ⟨((k, a), (k, _)), rfl, mem_entries.2 hb, rfl, hab⟩
  obtain ⟨xs, hxs, hx⟩ := exists_eq_map hpartner
  refine ⟨xs, hxs, ?_, fun x hmem => (hx x hmem).2⟩
  have hkeys : (xs.map Prod.snd).map Prod.fst = t.entries.map Prod.fst := by
    rw [hxs, List.map_map, List.map_map]
    exact List.map_congr_left fun x hmem => (hx x hmem).2.1.symm
  rw [List.perm_ext_iff_of_nodup (nodup_of_keys u.nodup) (nodup_of_keys (hkeys ▸ t.nodup))]
  refine fun e => ⟨fun he => ?_, fun he => ?_⟩
  · -- the key of the entry is one of the other table, where its partner is this entry
    have hk := h e.1
    rw [mem_entries.1 he] at hk
    generalize ha : t.get? e.1 = found at hk
    obtain ⟨-⟩ := hk
    have hmem := mem_entries.2 ha
    rw [hxs] at hmem
    obtain ⟨x, hmem, hxa⟩ := List.mem_map.1 hmem
    obtain ⟨hu, hkey, -⟩ := hx x hmem
    rw [hxa] at hkey
    refine List.mem_map.2 ⟨x, hmem, Prod.ext hkey.symm (Option.some.inj ?_)⟩
    rw [← mem_entries.1 he, hkey]
    exact (mem_entries.1 hu).symm
  · obtain ⟨x, hmem, rfl⟩ := List.mem_map.1 he
    exact (hx x hmem).1

/-- Tables with alike values under every key have alike mappings. -/
theorem Table.alike_mapping [DecidableEq κ] {f : κ → Value} {g : α → Value} {t u : Table κ α}
    (h : ∀ k, Option.Rel (fun a b => (g a).Alike (g b)) (t.get? k) (u.get? k)) :
    (t.mapping f g).Alike (u.mapping f g) := by
  obtain ⟨xs, ht, hu, hxs⟩ := Table.exists_pairs h
  refine @Value.Alike.map _ _ (xs.map fun x => ((f x.1.1, g x.1.2), (f x.2.1, g x.2.2))) ?_ ?_
    (List.forall_mem_map.2 fun x hmem => ?_) (List.forall_mem_map.2 fun x hmem => (hxs x hmem).2)
  · rw [ht, List.map_map, List.map_map]
    exact .refl _
  · have hmapped := hu.map fun e => (f e.1, g e.2)
    rw [List.map_map] at hmapped ⊢
    exact hmapped
  · dsimp only
    rw [(hxs x hmem).1]
    exact .refl _

/-- The tables of alike mappings have alike values under the same keys, if keys that are alike are the
same. -/
theorem Table.exists_get?_of_alike [DecidableEq κ] {f : κ → Value} {g : α → Value} {t u : Table κ α}
    (hf : ∀ a b, (f a).Alike (f b) → a = b) (h : (t.mapping f g).Alike (u.mapping f g)) {k : κ} {a : α}
    (ha : t.get? k = some a) : ∃ b, u.get? k = some b ∧ (g a).Alike (g b) := by
  obtain ⟨ws, es, hws, hfst, hsnd, hes⟩ := h.map_left
  obtain rfl := Value.map.inj hws
  -- the entry has a partner in the other table, under an alike key
  obtain ⟨e, he, hka⟩ := List.mem_map.1
    (hfst.mem_iff.1 (List.mem_map_of_mem (Table.mem_entries.2 ha)))
  obtain ⟨⟨k', b⟩, hb, heq⟩ := List.mem_map.1 (hsnd.mem_iff.2 (List.mem_map_of_mem he))
  obtain ⟨hkey, hvalue⟩ := hes e he
  rw [hka, ← heq] at hkey hvalue
  obtain rfl := hf _ _ hkey
  exact ⟨b, Table.mem_entries.1 hb, hvalue⟩

namespace Codec

/-- A map reads the mappings of tables. -/
theorem reads_mapping {key value : Codec} (hcanonical : Canonical key) (hkey : Keyed key)
    {f : κ → Value} (hkeys : Reads key f) {g : α → Value} (hvalues : Reads value g) (b : Bounds)
    (label : Option String) : Reads (map key value b .mapping label) (Table.mapping f g) := by
  intro v hv
  obtain ⟨entries, rfl, hlt⟩ := exists_mapping hkey hkeys hvalues hv
  exact ⟨⟨entries, nodup_of_precedes hcanonical hlt⟩, rfl⟩

/-- A map with numbers as keys reads tables. -/
theorem reads_table {value : Codec} {g : α → Value} (hvalues : Reads value g) (size : Nat)
    (b : Bounds) (label : Option String) :
    Reads (map (.uint size) value b .mapping label) (Table.toValue g) :=
  reads_mapping (canonical_uint size) (keyed_uint size) (reads_int_of_uint size) hvalues b label

/-- A map recovers the mappings of tables. -/
@[simp] theorem recovers_mapping {key value : Codec} (hkey : Keyed key) {f : κ → Value}
    (hkeys : ∀ k, Recovers key (f k)) {g : α → Value} {t : Table κ α}
    (hvalues : ∀ e ∈ t.entries, Recovers value (g e.2)) (b : Bounds) (label : Option String) :
    Recovers (map key value b .mapping label) (t.mapping f g) :=
  recovers_map hkey (List.forall_mem_map.2 fun e _ => hkeys e.1) (List.forall_mem_map.2 hvalues)

/-- A map with numbers as keys recovers tables. -/
@[simp] theorem recovers_table {value : Codec} {g : α → Value} {t : Table Int α}
    (hvalues : ∀ e ∈ t.entries, Recovers value (g e.2)) (size : Nat) (b : Bounds)
    (label : Option String) :
    Recovers (map (.uint size) value b .mapping label) (t.toValue g) :=
  recovers_mapping (keyed_uint size) (fun _ => recovers_uint size _) hvalues b label

end Codec

end StrictContract
