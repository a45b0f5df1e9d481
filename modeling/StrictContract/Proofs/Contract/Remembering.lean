import StrictContract.Proofs.Contract.Boards
import StrictContract.Proofs.Contract.Bounds

/-! # Remembering — global state and the order in which it is learnt

The items of global state of a type are kept in the order in which they were **learnt**: an item that is
known already, by its operation and position, is not moved. Only the newest items count, as many as the
schema says. So a state that learns a history in pieces can remember it in another order than a state
that learns it at once. Applying a consignment after a part of its history makes no difference as long
as the part comes first in what the consignment teaches, and where all items count, only then. -/

namespace StrictContract

/-- A loop over entries with different keys changes what is kept under each key as its entry says. -/
theorem foldl_entries {κ α β σ : Type} [DecidableEq κ] {f : σ → κ × α → σ} (kept : σ → κ → β)
    (change : α → β → β) (hsame : ∀ s e, kept (f s e) e.1 = change e.2 (kept s e.1))
    (hother : ∀ s e k, k ≠ e.1 → kept (f s e) k = kept s k) {entries : List (κ × α)}
    (hnodup : (entries.map Prod.fst).Nodup) (s : σ) (k : κ) :
    kept (entries.foldl f s) k = (entries.lookup k).elim (kept s k) (change · (kept s k)) := by
  induction entries generalizing s with
  | nil => rfl
  | cons e entries ih =>
    rw [List.map_cons, List.nodup_cons] at hnodup
    rw [List.foldl_cons, ih hnodup.2, Table.lookup_cons_eq_ite]
    by_cases hk : k = e.1
    · subst hk
      have hnone : entries.lookup e.1 = none := by
        rw [← Option.not_isSome_iff_eq_none, isSome_lookup]
        exact hnodup.1
      rw [if_pos rfl, hnone]
      exact hsame s e
    · rw [if_neg hk, hother s e k hk]

/-- What is found among the sorted entries of a table is what is found in the table. -/
theorem Table.lookup_sorted {κ α : Type} [DecidableEq κ] {le : κ → κ → Bool} (t : Table κ α) (k : κ) :
    (t.sorted le).lookup k = t.get? k := by
  have hperm : (t.sorted le).Perm t.entries := List.mergeSort_perm ..
  refine Option.ext fun a => ?_
  rw [lookup_eq_some_iff_mem ((hperm.map Prod.fst).nodup_iff.2 t.nodup), hperm.mem_iff, mem_entries]

theorem Table.nodup_sorted {κ α : Type} {le : κ → κ → Bool} (t : Table κ α) :
    ((t.sorted le).map Prod.fst).Nodup :=
  ((List.mergeSort_perm ..).map Prod.fst).nodup_iff.2 t.nodup

/-! ## Learning -/

/-- What tells items apart: the operation that sets them, and their position. -/
def GlobalItem.key (x : GlobalItem) : OpId × Nat := (x.opId, x.index)

namespace ContractState

/-- **Learns** items one by one. -/
def learn (known items : List GlobalItem) : List GlobalItem := items.foldl addItem known

/-- The **news** among items: those that are not known. -/
def news (known items : List GlobalItem) : List GlobalItem :=
  items.filter fun x => decide (x.key ∉ known.map GlobalItem.key)

/-- An item is added unless its key is known. -/
theorem addItem_eq (known : List GlobalItem) (x : GlobalItem) : addItem known x =
    if x.key ∈ known.map GlobalItem.key then known else known ++ [x] := by
  have hknown : (known.any fun y => y.opId == x.opId && y.index == x.index) = true ↔
      x.key ∈ known.map GlobalItem.key := by
    simp [GlobalItem.key]
  rw [addItem]
  exact if_congr hknown rfl rfl

theorem learn_append_singleton (known items : List GlobalItem) (x : GlobalItem) :
    learn known (items ++ [x]) = addItem (learn known items) x := by
  rw [learn, List.foldl_append]
  rfl

theorem learn_append (known items more : List GlobalItem) :
    learn known (items ++ more) = learn (learn known items) more :=
  List.foldl_append

/-- The keys that are known afterwards. -/
theorem mem_keys_learn {known items : List GlobalItem} {k : OpId × Nat} :
    k ∈ (learn known items).map GlobalItem.key ↔
      k ∈ known.map GlobalItem.key ∨ k ∈ items.map GlobalItem.key := by
  induction items using List.reverseRecOn with
  | nil => simp [learn]
  | append_singleton items x ih =>
    rw [learn_append_singleton, addItem_eq, List.map_append, List.mem_append, ← or_assoc, ← ih,
      List.map_singleton, List.mem_singleton]
    split
    · rename_i hx
      exact ⟨.inl, fun h => h.elim id fun hk => hk ▸ hx⟩
    · rw [List.map_append, List.mem_append, List.map_singleton, List.mem_singleton]

/-- No key is known twice. -/
theorem nodup_keys_learn {known items : List GlobalItem} (h : (known.map GlobalItem.key).Nodup) :
    ((learn known items).map GlobalItem.key).Nodup := by
  induction items using List.reverseRecOn with
  | nil => exact h
  | append_singleton items x ih =>
    rw [learn_append_singleton, addItem_eq]
    split
    · exact ih
    · rename_i hx
      rw [List.map_append, List.map_singleton]
      exact List.nodup_append.2 ⟨ih, List.nodup_singleton _, by
        rintro a ha b hb rfl
        exact hx (List.mem_singleton.1 hb ▸ ha)⟩

theorem news_append_singleton (known items : List GlobalItem) (x : GlobalItem) :
    news known (items ++ [x]) =
      news known items ++ if x.key ∈ known.map GlobalItem.key then [] else [x] := by
  rw [news, List.filter_append, List.filter_singleton, Bool.cond_decide, ite_not, news]

/-- What is learnt comes behind what is known: the news among the items, each at its first place. -/
theorem learn_eq_append (known items : List GlobalItem) :
    learn known items = known ++ news known (learn [] items) := by
  induction items using List.reverseRecOn with
  | nil => simp [learn, news]
  | append_singleton items x ih =>
    have hlearnt : x.key ∈ (learn known items).map GlobalItem.key ↔
        x.key ∈ known.map GlobalItem.key ∨ x.key ∈ (learn [] items).map GlobalItem.key := by
      rw [mem_keys_learn, @mem_keys_learn []]
      simp
    rw [learn_append_singleton, learn_append_singleton, addItem_eq, addItem_eq]
    by_cases hold : x.key ∈ (learn [] items).map GlobalItem.key
    · rw [if_pos (hlearnt.2 (.inr hold)), if_pos hold, ih]
    · by_cases hknown : x.key ∈ known.map GlobalItem.key
      · rw [if_pos (hlearnt.2 (.inl hknown)), if_neg hold, news_append_singleton, if_pos hknown,
          List.append_nil, ih]
      · rw [if_neg (mt hlearnt.1 (not_or.2 ⟨hknown, hold⟩)), if_neg hold, news_append_singleton,
          if_neg hknown, ih, List.append_assoc]

/-- What is known stays in front. -/
theorem prefix_learn (known items : List GlobalItem) : known <+: learn known items := by
  rw [learn_eq_append]
  exact List.prefix_append ..

/-- What comes first is no news, and what follows is. -/
theorem news_of_prefix {known items : List GlobalItem} (hnodup : (items.map GlobalItem.key).Nodup)
    (h : known <+: items) : known ++ news known items = items := by
  obtain ⟨rest, rfl⟩ := h
  rw [List.map_append, List.nodup_append] at hnodup
  have hknown : news known known = [] := by
    refine List.filter_eq_nil_iff.2 fun x hx => ?_
    simpa using ⟨x, hx, rfl⟩
  have hrest : news known rest = rest := by
    refine List.filter_eq_self.2 fun x hx => decide_eq_true fun hmem => ?_
    exact hnodup.2.2 _ hmem _ (List.mem_map_of_mem hx) rfl
  rw [news, List.filter_append]
  exact congrArg (known ++ ·) (by rw [← news, ← news, hknown, hrest, List.nil_append])

/-- Known items and the news are no more than the items, if the items have all the known keys. -/
theorem length_append_news_le {known items : List GlobalItem} (hknown : (known.map GlobalItem.key).Nodup)
    (hitems : (items.map GlobalItem.key).Nodup)
    (h : ∀ k ∈ known.map GlobalItem.key, k ∈ items.map GlobalItem.key) :
    (known ++ news known items).length ≤ items.length := by
  have hnodup : ((known ++ news known items).map GlobalItem.key).Nodup := by
    rw [List.map_append, List.nodup_append]
    refine ⟨hknown, hitems.sublist (List.filter_sublist.map _), ?_⟩
    rintro a ha b hb rfl
    obtain ⟨x, hx, rfl⟩ := List.mem_map.1 hb
    exact of_decide_eq_true (List.mem_filter.1 hx).2 ha
  have hsubset : (known ++ news known items).map GlobalItem.key ⊆ items.map GlobalItem.key := by
    intro k hk
    rw [List.map_append, List.mem_append] at hk
    exact hk.elim (h k) fun hk => (List.filter_sublist.map _).subset hk
  have hlength := (List.subperm_of_subset hnodup hsubset).length_le
  rwa [List.length_map, List.length_map] at hlength

/-! ## What a state remembers -/

variable {s : ContractState}

/-- The items of a type that a state **remembers**, oldest first. -/
def remembered (s : ContractState) (type : Int) : List GlobalItem := (s.globals.get? type).getD []

/-- The items that an operation sets where it stands. -/
def Origin.items (og : Origin) (values : List Value) : List GlobalItem :=
  values.zipIdx.map fun x => ⟨og.opId, x.2, x.1, og.witness⟩

/-- The items of a type that an entry of a chronicle **sets**. -/
def itemsSet (x : Origin × Operation) (type : Int) : List GlobalItem :=
  x.1.items ((x.2.state.globals.get? type).getD [])

/-- What is kept of a type after an operation adds its global state. -/
theorem get?_addGlobals (s : ContractState) (og : Origin) (state : OperationState) (type : Int) :
    (s.addGlobals og state).globals.get? type = (state.globals.get? type).elim (s.globals.get? type)
      fun values => some (learn (s.remembered type) (og.items values)) := by
  rw [addGlobals, ← state.globals.lookup_sorted]
  refine foldl_entries (fun s k => s.globals.get? k)
    (fun values old => some (learn (old.getD []) (og.items values))) (fun s e => ?_)
    (fun s e k hk => ?_) state.globals.nodup_sorted s type
  · rw [addGlobal, Table.get?_put, if_pos rfl, learn, Origin.items, List.foldl_map]
  · rw [addGlobal, Table.get?_put, if_neg hk]

/-- An entry teaches a state the items that it sets. -/
theorem remembered_perform (s : ContractState) (x : Origin × Operation) (type : Int) :
    (s.perform x).remembered type = learn (s.remembered type) (itemsSet x type) := by
  rw [perform_eq, addOperation_eq, remembered, globals_addAssignments, get?_addGlobals, itemsSet,
    remembered, remembered, (paid_keeps ..).1]
  cases x.2.state.globals.get? type <;> rfl

/-- The types that are declared do not change but by what an entry sets. -/
theorem contains_perform (s : ContractState) (x : Origin × Operation) (type : Int) :
    (s.perform x).globals.contains type =
      (s.globals.contains type || x.2.state.globals.contains type) := by
  rw [perform_eq, addOperation_eq, Table.contains, globals_addAssignments, get?_addGlobals,
    (paid_keeps ..).1, Table.contains, Table.contains]
  cases x.2.state.globals.get? type <;> simp

@[simp] theorem limits_perform (s : ContractState) (x : Origin × Operation) :
    (s.perform x).limits = s.limits := by
  rw [perform_eq, addOperation_eq, limits_addAssignments, limits_addGlobals, (paid_keeps ..).2.1]

/-- A chronicle teaches a state the items that its entries set. -/
theorem remembered_foldl_perform (s : ContractState) (h : Chronicle) (type : Int) :
    (h.foldl perform s).remembered type = learn (s.remembered type) (h.flatMap (itemsSet · type)) := by
  induction h generalizing s with
  | nil => rfl
  | cons x h ih => rw [List.foldl_cons, ih, remembered_perform, List.flatMap_cons, learn_append]

/-! ### Limits -/

theorem get?_limits_limited (s : ContractState) (schema : Schema) (type : Int) :
    (s.limited schema).limits.get? type = (schema.globalTypes.get? type).elim (s.limits.get? type)
      fun d => some d.maxItems := by
  refine foldl_entries (fun s k => s.limits.get? k) (fun d _ => some d.maxItems)
    (fun s e => ?_) (fun s e k hk => ?_) schema.globalTypes.nodup s type
  · rw [addLimit, Table.get?_put, if_pos rfl]
  · rw [addLimit, Table.get?_put, if_neg hk]

theorem get?_globals_limited (s : ContractState) (schema : Schema) (type : Int) :
    (s.limited schema).globals.get? type = (schema.globalTypes.get? type).elim (s.globals.get? type)
      fun _ => some (s.remembered type) := by
  refine foldl_entries (fun s k => s.globals.get? k) (fun _ old => some (old.getD []))
    (fun s e => ?_) (fun s e k hk => ?_) schema.globalTypes.nodup s type
  · rw [addLimit, Table.get?_putNew, if_pos rfl]
    cases s.globals.get? e.1 <;> rfl
  · rw [addLimit, Table.get?_putNew, if_neg hk, Option.or_none]

/-- Taking over limits teaches nothing. -/
theorem remembered_limited (s : ContractState) (schema : Schema) (type : Int) :
    (s.limited schema).remembered type = s.remembered type := by
  rw [remembered, get?_globals_limited, remembered]
  cases schema.globalTypes.get? type <;> rfl

/-- The types that are known are those that were, and those that a schema declares. -/
theorem contains_limited (s : ContractState) (schema : Schema) (type : Int) :
    (s.limited schema).globals.contains type =
      (s.globals.contains type || schema.globalTypes.contains type) := by
  rw [Table.contains, get?_globals_limited, Table.contains, Table.contains]
  cases schema.globalTypes.get? type <;> simp

/-- The types that are known after a chronicle are those that were, and those that entries set. -/
theorem contains_foldl_perform (s : ContractState) (h : Chronicle) (type : Int) :
    (h.foldl perform s).globals.contains type =
      (s.globals.contains type || h.any fun x => x.2.state.globals.contains type) := by
  induction h generalizing s with
  | nil => simp
  | cons x h ih => rw [List.foldl_cons, ih, contains_perform, List.any_cons, Bool.or_assoc]

/-! ### Queries -/

/-- A known type with a limit is answered by the newest items that are remembered. -/
theorem globalState_of_limit {type limit : Int} (hknown : s.globals.contains type = true)
    (hlimit : s.limits.get? type = some limit) :
    s.globalState type = .ok ((s.remembered type).reverse.take limit.toNat) := by
  obtain ⟨items, hitems⟩ := Option.isSome_iff_exists.1 hknown
  rw [globalState, remembered, hitems, hlimit]
  rfl

/-- There is no answer for a type that is not known. -/
theorem globalState_of_not_contains {type : Int} (h : s.globals.contains type = false) :
    s.globalState type =
      misuse (.missingKey s!"global state type {type} is not declared by the contract schema") := by
  rw [globalState, Option.not_isSome_iff_eq_none.1 (Bool.eq_false_iff.1 h)]

end ContractState

/-! ## Accepted consignments -/

/-- An operation of a consistent consignment conforms to the schema. -/
theorem Consignment.Consistent.conformsTo {c : Consignment} (hc : c.Consistent) {o : Operation}
    (ho : o ∈ c.operations) : o.ConformsTo c.schema c.types := by
  rcases List.mem_cons.1 ho with rfl | ho
  · exact Operation.passes_validate_iff.1 (hc.genesis "")
  · obtain ⟨w, hw, ho⟩ := List.mem_flatMap.1 ho
    obtain ⟨e, he, rfl⟩ := List.mem_map.1 ho
    exact Operation.passes_validate_iff.1 (hc.transitions w hw e (Table.mem_sorted.1 he) "")

/-- An operation that conforms to a schema sets only global state that the schema declares. -/
theorem Operation.ConformsTo.contains_globalTypes {o : Operation} {schema : Schema} {types : TypeSystem}
    (h : o.ConformsTo schema types) {type : Int} (hset : o.state.globals.contains type = true) :
    schema.globalTypes.contains type = true := by
  have hconforms : ∃ shape, o.Conforms schema types shape := by
    cases o with
    | genesis g => exact ⟨_, h⟩
    | transition t =>
      obtain ⟨shape, -, h⟩ := h
      exact ⟨shape, h⟩
  obtain ⟨shape, hconforms⟩ := hconforms
  obtain ⟨values, hvalues⟩ := Option.isSome_iff_exists.1 hset
  obtain ⟨d, -, hd, -⟩ := hconforms.globals _ (Table.mem_entries.2 hvalues)
  exact Option.isSome_iff_exists.2 ⟨d, hd⟩

namespace ValidConsignment

open ContractState

variable {v w : ValidConsignment}

/-- The schema of an accepted consignment declares the global state that is set in it. -/
theorem Accepted.contains_globalTypes (hv : v.Accepted) {x : Origin × Operation} (hx : x ∈ v.told)
    {type : Int} (hset : x.2.state.globals.contains type = true) :
    v.consignment.schema.globalTypes.contains type = true := by
  obtain ⟨o, ho, hid⟩ := List.mem_filterMap.1 (hv.mem_identified hx)
  obtain ⟨id, -, heq⟩ := Option.map_eq_some_iff.1 hid
  cases heq
  exact (hv.consistent.conformsTo ho).contains_globalTypes hset

/-- The items of a type that a consignment **teaches**, in the order in which they are learnt from it. -/
def learnt (v : ValidConsignment) (type : Int) : List GlobalItem :=
  learn [] (v.told.flatMap (itemsSet · type))

theorem nodup_keys_learnt (v : ValidConsignment) (type : Int) :
    ((v.learnt type).map GlobalItem.key).Nodup :=
  nodup_keys_learn List.nodup_nil

end ValidConsignment

namespace ContractState

open ValidConsignment

variable {s : ContractState} {v w : ValidConsignment} {type : Int} {d : GlobalDetails}

/-- Behind what a state remembers come the news of a consignment. -/
theorem remembered_replay (s : ContractState) (v : ValidConsignment) (type : Int) :
    (s.replay v).remembered type = s.remembered type ++ news (s.remembered type) (v.learnt type) := by
  rw [learnt, ← learn_eq_append, ← remembered_limited s v.consignment.schema, ← remembered_foldl_perform]
  rfl

/-- Limits are those of the schema. -/
theorem get?_limits_replay (s : ContractState)
    (hd : v.consignment.schema.globalTypes.get? type = some d) :
    (s.replay v).limits.get? type = some d.maxItems := by
  have hlimits : (s.replay v).limits = (s.limited v.consignment.schema).limits :=
    foldl_keeps ContractState.limits limits_perform
  rw [hlimits, get?_limits_limited, hd]
  rfl

/-- An accepted consignment makes known the types that its schema declares, and no others. -/
theorem contains_replay (s : ContractState) (hv : v.Accepted) (type : Int) :
    (s.replay v).globals.contains type =
      (s.globals.contains type || v.consignment.schema.globalTypes.contains type) := by
  have hknown : (s.replay v).globals.contains type =
      ((s.limited v.consignment.schema).globals.contains type ||
        v.told.any fun x => x.2.state.globals.contains type) :=
    contains_foldl_perform ..
  rw [hknown, contains_limited, Bool.or_assoc]
  refine congrArg _ (Bool.or_eq_left_iff_imp.2 fun hany => ?_)
  obtain ⟨x, hx, hset⟩ := List.any_eq_true.1 hany
  exact hv.contains_globalTypes hx hset

/-- After an accepted consignment, a declared type is answered by what was remembered and the news. -/
theorem globalState_replay (s : ContractState) (hv : v.Accepted)
    (hd : v.consignment.schema.globalTypes.get? type = some d) : (s.replay v).globalState type =
      .ok ((s.remembered type ++ news (s.remembered type) (v.learnt type)).reverse.take
        d.maxItems.toNat) := by
  rw [← remembered_replay]
  refine globalState_of_limit ?_ (get?_limits_replay s hd)
  rw [contains_replay s hv, Table.contains, Table.contains, hd, Option.isSome_some, Bool.or_true]

/-- A state that knows nothing remembers nothing. -/
@[simp] theorem remembered_empty (id : ContractId) (type : Int) : (empty id).remembered type = [] := rfl

/-- From nothing, a consignment teaches all its items. -/
theorem remembered_replay_empty (id : ContractId) (v : ValidConsignment) (type : Int) :
    ((empty id).replay v).remembered type = v.learnt type := by
  rw [remembered_replay, remembered_empty, List.nil_append, news]
  exact List.filter_eq_self.2 fun x _ => rfl

/-- All at once, the newest items that a consignment teaches are shown. -/
theorem globalState_at_once (id : ContractId) (hw : w.Accepted)
    (hd : w.consignment.schema.globalTypes.get? type = some d) :
    ((empty id).replay w).globalState type = .ok ((w.learnt type).reverse.take d.maxItems.toNat) := by
  rw [globalState_replay _ hw hd, ← remembered_replay, remembered_replay_empty]

/-- In parts, the newest items are the news of the second part. -/
theorem globalState_in_parts (id : ContractId) (v : ValidConsignment) (hw : w.Accepted)
    (hd : w.consignment.schema.globalTypes.get? type = some d) :
    (((empty id).replay v).replay w).globalState type = .ok
      ((v.learnt type ++ news (v.learnt type) (w.learnt type)).reverse.take d.maxItems.toNat) := by
  rw [globalState_replay _ hw hd, remembered_replay_empty]

end ContractState

/-! ## A part of a history first -/

/-- Alike operations set equally many items of global state. -/
theorem Operation.globalCount_of_alike {x y : Operation} (h : x.toValue.Alike y.toValue) (type : Int) :
    x.globalCount type = y.globalCount type := by
  have hfound : ∀ {s t : OperationState}, s.globalsValue.Alike t.globalsValue → ∀ values,
      s.globals.get? type = some values →
        ∃ values', t.globals.get? type = some values' ∧ values.length = values'.length := by
    intro s t halike values hvalues
    obtain ⟨values', hvalues', hsame⟩ :=
      Table.exists_get?_of_alike (fun _ _ => Value.Alike.int_iff.1) halike hvalues
    obtain ⟨zs, hfst, hsnd, -⟩ := hsame.tuple_left
    refine ⟨values', hvalues', ?_⟩
    rw [Value.tuple.inj hsnd, hfst, List.length_map, List.length_map]
  have halike := (alike_state h).1
  unfold globalCount
  cases hx : x.state.globals.get? type with
  | some values =>
    obtain ⟨values', hy, hlength⟩ := hfound halike values hx
    rw [hy]
    exact hlength
  | none =>
    cases hy : y.state.globals.get? type with
    | none => rfl
    | some values =>
      obtain ⟨values', hx', -⟩ := hfound halike.symm values hy
      rw [hx] at hx'
      cases hx'

/-- Alike schemas declare the same global types. -/
theorem Schema.contains_globalTypes_of_alike {s t : Schema} (h : s.toValue.Alike t.toValue) (type : Int) :
    s.globalTypes.contains type = t.globalTypes.contains type := by
  have hget : ∀ {s t : Schema}, s.toValue.Alike t.toValue → s.globalTypes.contains type = true →
      t.globalTypes.contains type = true := by
    intro s t h hdeclared
    obtain ⟨d, hd⟩ := Option.isSome_iff_exists.1 hdeclared
    obtain ⟨-, hfields⟩ := (Value.Alike.record_iff (by decide)).1 h
    obtain ⟨_, hfound, halike⟩ := hfields.exists_lookup
      (show List.lookup "global_types" _ = some (s.globalTypes.toValue GlobalDetails.toValue) from rfl)
    cases hfound
    obtain ⟨d', hd', -⟩ := Table.exists_get?_of_alike (fun _ _ => Value.Alike.int_iff.1) halike hd
    exact Option.isSome_iff_exists.2 ⟨d', hd'⟩
  exact Bool.eq_iff_iff.2 ⟨hget h, hget h.symm⟩

namespace ValidConsignment

open ContractState

/-- A consignment is **within** another one when every operation of it is carried there, too, whatever
the witness. -/
def Within (v w : ValidConsignment) : Prop :=
  ∀ x ∈ v.told, ∃ y ∈ w.told, y.1.opId = x.1.opId ∧ x.2.toValue.Alike y.2.toValue

variable {v w : ValidConsignment}

/-- A part teaches nothing that the whole does not teach. -/
theorem Within.mem_keys_learnt (h : v.Within w) {type : Int} {k : OpId × Nat}
    (hk : k ∈ (v.learnt type).map GlobalItem.key) : k ∈ (w.learnt type).map GlobalItem.key := by
  have hkeys : ∀ x : Origin × Operation, (itemsSet x type).map GlobalItem.key =
      (List.range (x.2.globalCount type)).map fun i => (x.1.opId, i) := by
    intro x
    rw [itemsSet, Origin.items, List.map_map, Operation.globalCount, List.range_eq_range',
      ← List.zipIdx_map_snd, List.map_map]
    rfl
  rw [learnt, mem_keys_learn, List.map_nil, List.map_flatMap] at hk ⊢
  obtain hk := hk.resolve_left List.not_mem_nil
  obtain ⟨x, hx, hk⟩ := List.mem_flatMap.1 hk
  obtain ⟨y, hy, hid, halike⟩ := h x hx
  refine .inr (List.mem_flatMap.2 ⟨y, hy, ?_⟩)
  rwa [hkeys, hid, ← Operation.globalCount_of_alike halike, ← hkeys]

/-- The part and the whole have the same genesis, so they have alike schemas unless their bytes
collide. -/
theorem Within.alike_schema_or_collide (h : v.Within w) (hv : v.Accepted) (hw : w.Accepted)
    (hregular : v.consignment.schema.Regular) (hregular' : w.consignment.schema.Regular) :
    v.consignment.schema.toValue.Alike w.consignment.schema.toValue ∨
      Collide .schema v.consignment.schema.encode w.consignment.schema.encode := by
  obtain ⟨y, hy, -, halike⟩ := h _ (List.mem_cons_self ..)
  rcases genesis_or_transition hy with hgenesis | ⟨t, -, htransition, -⟩
  · rw [hgenesis] at halike
    obtain ⟨-, -, hschema, -⟩ := (Value.Alike.record_iff (by decide)).1 halike
    have hid := hv.consistent.reference
    rw [Value.Alike.id_iff.1 hschema] at hid
    exact hregular.recovers.alike_or_collide hregular'.recovers hid hw.consistent.reference
  · rw [htransition] at halike
    obtain ⟨htype, -⟩ := (Value.Alike.record_iff (by decide)).1 halike
    exact absurd htype (by decide)

end ValidConsignment

namespace ContractState

open ValidConsignment

/-- **A part of a history first.** An accepted consignment is applied after another one within it, and
alone. Both states know the same types of global state, unless the schemas collide. The first state
shows what the part teaches and behind it the news of the whole, the second one what the whole teaches,
each as far as it counts. These are the same when the part teaches the first items of the whole, in
their order, and where all items count, only then. -/
theorem globalState_of_within {v w : ValidConsignment} (hv : v.Accepted) (hw : w.Accepted)
    (hid : w.contractId = v.contractId) (hregular : v.consignment.schema.Regular)
    (hregular' : w.consignment.schema.Regular) (hwithin : v.Within w) :
    ∃ s t, [v, w].foldlM apply (empty v.contractId) = .ok s ∧
      [w].foldlM apply (empty v.contractId) = .ok t ∧
      (Collide .schema v.consignment.schema.encode w.consignment.schema.encode ∨ ∀ type,
        (w.consignment.schema.globalTypes.get? type = none → s.globalState type = t.globalState type) ∧
        ∀ d, w.consignment.schema.globalTypes.get? type = some d →
          s.globalState type = .ok
            ((v.learnt type ++ news (v.learnt type) (w.learnt type)).reverse.take d.maxItems.toNat) ∧
          t.globalState type = .ok ((w.learnt type).reverse.take d.maxItems.toNat) ∧
          (v.learnt type <+: w.learnt type → s.globalState type = t.globalState type) ∧
          ((w.learnt type).length ≤ d.maxItems.toNat →
            s.globalState type = t.globalState type → v.learnt type <+: w.learnt type)) := by
  have hboth : ∀ u ∈ [v, w], u.Accepted ∧ u.contractId = v.contractId :=
    List.forall_mem_cons.2 ⟨⟨hv, rfl⟩, List.forall_mem_singleton.2 ⟨hw, hid⟩⟩
  refine ⟨_, _, foldlM_apply_eq hboth, foldlM_apply_eq (List.forall_mem_singleton.2 ⟨hw, hid⟩), ?_⟩
  refine (hwithin.alike_schema_or_collide hv hw hregular hregular').symm.imp_right fun halike type => ?_
  simp only [List.foldl_cons, List.foldl_nil]
  constructor
  · intro hnone
    have hundeclared : w.consignment.schema.globalTypes.contains type = false := by
      rw [Table.contains, hnone, Option.isSome_none]
    rw [globalState_of_not_contains, globalState_of_not_contains]
    · rw [contains_replay _ hw, hundeclared]
      rfl
    · rw [contains_replay _ hw, contains_replay _ hv, Schema.contains_globalTypes_of_alike halike,
        hundeclared]
      rfl
  · intro d hd
    have hparts := globalState_in_parts v.contractId v hw hd
    have honce := globalState_at_once v.contractId hw hd
    refine ⟨hparts, honce, fun hprefix => ?_, fun hcount hsame => ?_⟩
    · rw [hparts, honce, news_of_prefix (w.nodup_keys_learnt type) hprefix]
    · -- the first state remembers no more items than the second, so all of them count as well
      have hlength := length_append_news_le (v.nodup_keys_learnt type) (w.nodup_keys_learnt type)
        fun k hk => hwithin.mem_keys_learnt hk
      rw [hparts, honce, List.take_of_length_le (by rw [List.length_reverse]; omega),
        List.take_of_length_le (by rwa [List.length_reverse])] at hsame
      exact ⟨_, List.reverse_injective (Except.ok.inj hsame)⟩

end ContractState

/-! ### Posts in pieces -/

/-- The item that a post sets under a witness. -/
def Consignment.Post.item {genesis : OpId} (a : Post genesis) (witness : Txid) : GlobalItem :=
  ⟨a.id, 0, .bytes [], some witness⟩

namespace ContractState

open Consignment ValidConsignment

variable {schemaId : SchemaId} {genesis : OpId} {posts : List (Post genesis × Txid)}

/-- A board teaches the items of its posts. -/
theorem learnt_board {v : ValidConsignment} (hboard : v.consignment = board schemaId posts)
    (hid : v.contractId = genesis.cast .contract) :
    v.learnt 0 = learn [] (posts.map fun a => a.1.item a.2) := by
  rw [learnt, told_board hboard hid, boardTold, List.flatMap_cons, List.flatMap_map, List.map_eq_flatMap]
  rfl

/-- Two posts under two witnesses, the second of them applied first and then both, and both at once: the
newest item is one time that of the first post, and the other time that of the second. -/
theorem globalState_in_pieces :
    ∃ (v w : ValidConsignment) (s t : ContractState), v.Accepted ∧ w.Accepted ∧
      w.contractId = v.contractId ∧ (∀ x ∈ v.told, x ∈ w.told) ∧
      [v, w].foldlM apply (empty v.contractId) = .ok s ∧
      [w].foldlM apply (empty v.contractId) = .ok t ∧ s.globalState 0 ≠ t.globalState 0 := by
  have hne : uniformTxid 17 ≠ uniformTxid 34 := by decide
  obtain ⟨schemaId, genesis, a, b, -, -, hboards⟩ := exists_boards
  obtain ⟨v, hv, hboard, hid⟩ := hboards [(b, uniformTxid 34)] (Nat.le_of_ble_eq_true rfl)
  obtain ⟨w, hw, hboard', hid'⟩ :=
    hboards [(a, uniformTxid 17), (b, uniformTxid 34)] (Nat.le_of_ble_eq_true rfl)
  have hsame : w.contractId = v.contractId := hid'.trans hid.symm
  have hboth : ∀ u ∈ [v, w], u.Accepted ∧ u.contractId = v.contractId :=
    List.forall_mem_cons.2 ⟨⟨hv, rfl⟩, List.forall_mem_singleton.2 ⟨hw, hsame⟩⟩
  refine ⟨v, w, _, _, hv, hw, hsame, fun x hx => ?_, foldlM_apply_eq hboth,
    foldlM_apply_eq (List.forall_mem_singleton.2 ⟨hw, hsame⟩), fun hequal => ?_⟩
  · rw [told_board hboard' hid']
    rw [told_board hboard hid] at hx
    exact (List.mem_cons.1 hx).elim (fun h => h ▸ List.mem_cons_self ..)
      fun h => List.mem_cons_of_mem _ (List.mem_cons_of_mem _ h)
  · have hd : w.consignment.schema.globalTypes.get? 0 =
        some ⟨Id.ofContent .sem unitOctets, 2, .text "g"⟩ := by
      rw [hboard']
      rfl
    simp only [List.foldl_cons, List.foldl_nil] at hequal
    rw [globalState_in_parts _ v hw hd, globalState_at_once _ hw hd, learnt_board hboard hid,
      learnt_board hboard' hid'] at hequal
    -- the two posts may have one id, and then only the first item that is learnt counts
    by_cases hposts : a.id = b.id
    · simp [learn, news, addItem, GlobalItem.key, Post.item, hposts, hne.symm] at hequal
    · simp [learn, news, addItem, GlobalItem.key, Post.item, hposts, Ne.symm hposts, hne.symm] at hequal

/-- A post applied first, and then a board with another post behind it. -/
theorem globalState_of_within_prefix :
    ∃ (v w : ValidConsignment) (s t : ContractState), v.Accepted ∧ w.Accepted ∧
      w.contractId = v.contractId ∧ v.Within w ∧ [v, w].foldlM apply (empty v.contractId) = .ok s ∧
      [w].foldlM apply (empty v.contractId) = .ok t ∧ s.globalState 0 = t.globalState 0 := by
  obtain ⟨schemaId, genesis, a, b, -, -, hboards⟩ := exists_boards
  obtain ⟨v, hv, hboard, hid⟩ := hboards [(a, uniformTxid 17)] (Nat.le_of_ble_eq_true rfl)
  obtain ⟨w, hw, hboard', hid'⟩ :=
    hboards [(a, uniformTxid 17), (b, uniformTxid 34)] (Nat.le_of_ble_eq_true rfl)
  have hsame : w.contractId = v.contractId := hid'.trans hid.symm
  have hschema : v.consignment.schema = boardSchema := by rw [hboard]; rfl
  have hschema' : w.consignment.schema = boardSchema := by rw [hboard']; rfl
  have hregular : boardSchema.Regular := ⟨rfl, List.forall_mem_singleton.2 rfl⟩
  have hwithin : v.Within w := by
    intro x hx
    rw [told_board hboard hid] at hx
    refine ⟨x, ?_, rfl, .refl _⟩
    rw [told_board hboard' hid']
    exact List.mem_append_left [b.entry (uniformTxid 34)] hx
  obtain ⟨s, t, hs, ht, hcollide | hstates⟩ :=
    globalState_of_within hv hw hsame (hschema ▸ hregular) (hschema' ▸ hregular) hwithin
  · obtain ⟨p, q, hp, hq, hpq, -⟩ := hcollide
    rw [hschema] at hp
    rw [hschema', hp] at hq
    exact absurd (Except.ok.inj hq) hpq
  · refine ⟨v, w, s, t, hv, hw, hsame, hwithin, hs, ht,
      ((hstates 0).2 _ (by rw [hschema']; rfl)).2.2.1 ?_⟩
    -- the post is the first one on the board
    rw [learnt_board hboard hid, learnt_board hboard' hid', List.map_cons, List.map_nil, List.map_cons,
      ← List.singleton_append, learn_append]
    exact prefix_learn ..

end ContractState

end StrictContract
