/-! # Tables — finite maps that remember the order of their keys

A **table** assigns values to keys, each key once. A key keeps the place at which it first came,
whatever value it gets later. -/

namespace StrictContract

/-- A **table**. -/
structure Table (κ α : Type) where
  /-- The entries in the order in which their keys came. -/
  entries : List (κ × α)
  /-- No key occurs twice. -/
  nodup : (entries.map Prod.fst).Nodup
deriving DecidableEq

namespace Table

variable {κ α β : Type}

/-- The table without entries. -/
def empty : Table κ α := ⟨[], List.nodup_nil⟩

/-- The keys in order. -/
def keys (t : Table κ α) : List κ := t.entries.map Prod.fst

/-- The values in the order of their keys. -/
def values (t : Table κ α) : List α := t.entries.map Prod.snd

/-- The number of entries. -/
def size (t : Table κ α) : Nat := t.entries.length

/-- The table with every value replaced by its image. -/
def map (f : α → β) (t : Table κ α) : Table κ β where
  entries := t.entries.map fun (k, a) => (k, f a)
  nodup := by
    have h : (t.entries.map fun (k, a) => (k, f a)).map Prod.fst = t.entries.map Prod.fst := by
      simp [Function.comp_def]
    rw [h]
    exact t.nodup

section Lookup

variable [DecidableEq κ]

/-- The value of a key. -/
def get? (t : Table κ α) (k : κ) : Option α := t.entries.lookup k

/-- Whether a key has a value. -/
def contains (t : Table κ α) (k : κ) : Bool := (t.get? k).isSome

/-- Sets the value of a key in a list of entries; a new key comes last. -/
def putEntry (k : κ) (a : α) : List (κ × α) → List (κ × α)
  | [] => [(k, a)]
  | (k', b) :: rest => if k' = k then (k, a) :: rest else (k', b) :: putEntry k a rest

theorem mem_keys_putEntry {k x : κ} {a : α} {entries : List (κ × α)} :
    x ∈ (putEntry k a entries).map Prod.fst ↔ x = k ∨ x ∈ entries.map Prod.fst := by
  induction entries with
  | nil => simp [putEntry]
  | cons e rest ih =>
    obtain ⟨k', b⟩ := e
    by_cases h : k' = k
    · subst h; simp [putEntry]
    · simp only [putEntry, if_neg h, List.map_cons, List.mem_cons, ih]
      constructor
      · rintro (h | h | h)
        · exact .inr (.inl h)
        · exact .inl h
        · exact .inr (.inr h)
      · rintro (h | h | h)
        · exact .inr (.inl h)
        · exact .inl h
        · exact .inr (.inr h)

theorem nodup_putEntry {k : κ} {a : α} {entries : List (κ × α)}
    (h : (entries.map Prod.fst).Nodup) : ((putEntry k a entries).map Prod.fst).Nodup := by
  induction entries with
  | nil => simp [putEntry]
  | cons e rest ih =>
    obtain ⟨k', b⟩ := e
    rw [List.map_cons, List.nodup_cons] at h
    by_cases hk : k' = k
    · subst hk; simpa [putEntry] using h
    · simp only [putEntry, if_neg hk, List.map_cons, List.nodup_cons, mem_keys_putEntry, not_or]
      exact ⟨⟨hk, h.1⟩, ih h.2⟩

/-- Sets the value of a key. -/
def put (t : Table κ α) (k : κ) (a : α) : Table κ α :=
  ⟨putEntry k a t.entries, nodup_putEntry t.nodup⟩

/-- Sets the value of a key that has none. -/
def putNew (t : Table κ α) (k : κ) (a : α) : Table κ α := if t.contains k then t else t.put k a

/-- The entries without the one of a key. -/
def erase (t : Table κ α) (k : κ) : Table κ α where
  entries := t.entries.filter fun e => e.1 ≠ k
  nodup := t.nodup.sublist (List.filter_sublist.map Prod.fst)

/-- The table of a list of entries; of entries with one key the last gives the value. -/
def ofList (entries : List (κ × α)) : Table κ α :=
  entries.foldl (fun t (k, a) => t.put k a) empty

/-- Whether two tables have the same entries in whatever order. -/
def same [DecidableEq α] (t u : Table κ α) : Bool :=
  t.size == u.size && t.entries.all fun (k, a) => u.get? k == some a

end Lookup

/-- The entries in ascending order of the keys. -/
def sorted (le : κ → κ → Bool) (t : Table κ α) : List (κ × α) :=
  t.entries.mergeSort fun a b => le a.1 b.1

end Table

/-- The order of integers, as a test. -/
def intLe (a b : Int) : Bool := decide (a ≤ b)

/-- The items of a list in order, without repetitions. -/
def distinct {α : Type} [DecidableEq α] (items : List α) : List α :=
  (items.foldl (fun acc a => if acc.contains a then acc else a :: acc) []).reverse

end StrictContract
