import Mathlib.Data.List.Forall2
import StrictContract.Proofs.Contract.Recomputing
import StrictContract.Proofs.Contract.Reordering

/-! # Matching consignments — what a check reads

A check looks at tables in ascending order of their keys or under one key, at inputs and seals in
ascending order, and at structured states through what they decode to. Two consignments **match**
when they agree in all of this. Whatever a check does with matching consignments after their
identifiers were recomputed, it does with both: it reports the same violations in the same order, or
fails with the same failure. -/

namespace StrictContract

/-! ## Loops over paired lists -/

section

variable {α β γ : Type} {R : α → β → Prop} {xs : List α} {ys : List β}

/-- Loops that collect the same for paired items collect the same. -/
theorem flatMap_eq_of_forall₂ {f : α → List γ} {g : β → List γ} (h : List.Forall₂ R xs ys)
    (hfg : ∀ a b, R a b → f a = g b) : xs.flatMap f = ys.flatMap g := by
  induction h with
  | nil => rfl
  | cons hab _ ih => rw [List.flatMap_cons, List.flatMap_cons, hfg _ _ hab, ih]

/-- Loops that collect the same items for paired items, in whatever order, collect the same items. -/
theorem mem_flatMap_of_forall₂ {f : α → List γ} {g : β → List γ} {c : γ} (h : List.Forall₂ R xs ys)
    (hfg : ∀ a b, R a b → (c ∈ f a ↔ c ∈ g b)) : c ∈ xs.flatMap f ↔ c ∈ ys.flatMap g := by
  induction h with
  | nil => rfl
  | cons hab _ ih =>
    rw [List.flatMap_cons, List.flatMap_cons, List.mem_append, List.mem_append, hfg _ _ hab, ih]

/-- Loops that keep the same of paired items keep the same. -/
theorem filterMap_eq_of_forall₂ {f : α → Option γ} {g : β → Option γ} (h : List.Forall₂ R xs ys)
    (hfg : ∀ a b, R a b → f a = g b) : xs.filterMap f = ys.filterMap g := by
  induction h with
  | nil => rfl
  | cons hab _ ih => rw [List.filterMap_cons, List.filterMap_cons, hfg _ _ hab, ih]

/-- Loops with the same outcome for paired items have the same outcome. -/
theorem mapM_eq_of_forall₂ {f : α → Except Failure γ} {g : β → Except Failure γ}
    (h : List.Forall₂ R xs ys) (hfg : ∀ a b, R a b → f a = g b) : xs.mapM f = ys.mapM g := by
  induction h with
  | nil => rfl
  | cons hab _ ih => rw [List.mapM_cons, List.mapM_cons, hfg _ _ hab, ih]

/-- Paired items stand at the same positions. -/
theorem forall₂_zipIdx (h : List.Forall₂ R xs ys) (n : Nat) :
    List.Forall₂ (fun x y => R x.1 y.1 ∧ x.2 = y.2) (xs.zipIdx n) (ys.zipIdx n) := by
  induction h generalizing n with
  | nil => exact .nil
  | cons hab _ ih =>
    rw [List.zipIdx_cons, List.zipIdx_cons]
    exact .cons ⟨hab, rfl⟩ (ih (n + 1))

end

/-! ## Tables -/

theorem orders_intLe : Orders intLe := orders_of_key (fun n : Int => n) fun _ _ h => h

theorem Id.orders_le {kind : IdKind} : Orders (@le kind) :=
  orders_of_key Id.octets fun _ _ => Id.ext

namespace Table

variable {κ α : Type} [DecidableEq κ] {R : α → α → Prop} {t u : Table κ α} {le : κ → κ → Bool}

/-- The entries of tables that agree are paired in ascending order. -/
theorem Agrees.forall₂_sorted (h : t.Agrees R u) (hle : Orders le) :
    List.Forall₂ (fun d e => d.1 = e.1 ∧ R d.2 e.2) (t.sorted le) (u.sorted le) := by
  obtain ⟨xs, ht, hu, hxs⟩ := exists_pairs h
  let ys := xs.mergeSort fun x y => le x.1.1 y.1.1
  have hys : ∀ y ∈ ys, y ∈ xs := fun y => List.mem_mergeSort.1
  have hfst : t.sorted le = ys.map Prod.fst := by
    rw [sorted, ht]
    exact (List.map_mergeSort (s := fun d e : κ × α => le d.1 e.1) fun x _ y _ => rfl).symm
  have hsnd : u.sorted le = ys.map Prod.snd := by
    have hperm : (u.sorted le).Perm (ys.map Prod.snd) :=
      ((List.mergeSort_perm ..).trans hu).trans ((List.mergeSort_perm ..).map _).symm
    refine hperm.eq_of_pairwise ?_ (hle.pairwise_mergeSort Prod.fst u.entries) ?_
    · -- of two entries with one key there is only one
      intro d e hd he hde hed
      have hkey := hle.antisymm _ _ hde hed
      have hd := mem_entries.1 (List.mem_mergeSort.1 hd)
      have he := mem_entries.1 (List.mem_mergeSort.1 (hperm.mem_iff.2 he))
      rw [hkey, he, Option.some.injEq] at hd
      exact Prod.ext hkey hd.symm
    · rw [List.pairwise_map]
      refine (hle.pairwise_mergeSort (fun x => x.1.1) xs).imp_of_mem ?_
      intro x y hx hy hxy
      rwa [← (hxs x (hys x hx)).1, ← (hxs y (hys y hy)).1]
  rw [hfst, hsnd, List.forall₂_map_left_iff, List.forall₂_map_right_iff, List.forall₂_same]
  exact fun y hy => hxs y (hys y hy)

/-- Tables with the same values have the same ascending entries. -/
theorem Agrees.sorted_eq (h : t.Agrees (· = ·) u) (hle : Orders le) : t.sorted le = u.sorted le := by
  have hpairs := (h.forall₂_sorted hle).imp fun d e hde => Prod.ext hde.1 hde.2
  rwa [List.forall₂_eq_eq_eq] at hpairs

/-- Under every key, tables that agree have both nothing or both something. -/
theorem Agrees.none_or_some (h : t.Agrees R u) (k : κ) : (t.get? k = none ∧ u.get? k = none) ∨
    ∃ a b, t.get? k = some a ∧ u.get? k = some b ∧ R a b := by
  have hk := h k
  generalize t.get? k = a at hk ⊢
  generalize u.get? k = b at hk ⊢
  cases hk with
  | none => exact .inl ⟨rfl, rfl⟩
  | some hab => exact .inr ⟨_, _, rfl, rfl, hab⟩

/-- Tables agree up to what follows from a relation between their values. -/
theorem Agrees.imp_of_mem {S : α → α → Prop} (h : t.Agrees R u)
    (hRS : ∀ e ∈ t.entries, ∀ b, R e.2 b → S e.2 b) : t.Agrees S u := by
  intro k
  rcases h.none_or_some k with ⟨ha, hb⟩ | ⟨a, b, ha, hb, hab⟩
  · rw [ha, hb]
    exact .none
  · rw [ha, hb]
    exact .some (hRS _ (mem_entries.2 ha) b hab)

theorem Agrees.imp {S : α → α → Prop} (h : t.Agrees R u) (hRS : ∀ a b, R a b → S a b) :
    t.Agrees S u :=
  h.imp_of_mem fun e _ b => hRS e.2 b

/-- Tables with the same values have the same value under every key. -/
theorem Agrees.get?_eq (h : t.Agrees (· = ·) u) (k : κ) : t.get? k = u.get? k := by
  rcases h.none_or_some k with ⟨ht, hu⟩ | ⟨a, b, ht, hu, hab⟩
  · rw [ht, hu]
  · rw [ht, hu, hab]

/-- Tables that agree have the same keys. -/
theorem Agrees.contains_eq (h : t.Agrees R u) (k : κ) : t.contains k = u.contains k := by
  unfold contains
  rcases h.none_or_some k with ⟨ht, hu⟩ | ⟨a, b, ht, hu, -⟩
  · rw [ht, hu]
  · rw [ht, hu]
    rfl

/-- What is collected from the values of tables that agree is the same, in whatever order. -/
theorem Agrees.mem_flatMap_values {β : Type} {f : α → List β} {x : β} (h : t.Agrees R u)
    (hf : ∀ a b, R a b → (x ∈ f a ↔ x ∈ f b)) :
    x ∈ t.values.flatMap f ↔ x ∈ u.values.flatMap f := by
  have hvalues : ∀ t : Table κ α, x ∈ t.values.flatMap f ↔ ∃ k a, t.get? k = some a ∧ x ∈ f a := by
    intro t
    simp only [values, List.flatMap_map, List.mem_flatMap, Prod.exists, mem_entries]
  rw [hvalues, hvalues]
  refine exists_congr fun k => ?_
  rcases h.none_or_some k with ⟨ht, hu⟩ | ⟨a, b, ht, hu, hab⟩
  · simp [ht, hu]
  · simp [ht, hu, hf a b hab]

end Table

/-! ## Operations -/

/-- Type systems **match** when they describe the same types by the same codecs. -/
structure TypeSystem.Matches (ts ts' : TypeSystem) : Prop where
  contains : ∀ sid, ts.contains sid = ts'.contains sid
  codecOf : ∀ sid, ts.codecOf sid = ts'.codecOf sid

/-- Type systems with the same definitions match. -/
theorem TypeSystem.matches_of_perm {ts ts' : TypeSystem} (hnodup : (ts.entries.map Prod.fst).Nodup)
    (h : ts.entries.Perm ts'.entries) : ts.Matches ts' := by
  have hget : ts.get? = ts'.get? := by
    funext sid
    exact Option.ext fun d => by
      rw [get?, get?, lookup_eq_some_iff_mem hnodup,
        lookup_eq_some_iff_mem ((h.map Prod.fst).nodup_iff.1 hnodup), h.mem_iff]
  have hfind : ts.find = ts'.find := by
    funext sid
    rw [find, find, hget]
  have hdescribe : ∀ n, ts.describe n = ts'.describe n := by
    intro n
    induction n with
    | zero => rfl
    | succ n ih =>
      funext sid
      rw [describe, describe, ih]
      unfold describeBy isByte splitText?
      rw [hfind]
  constructor
  · intro sid
    rw [contains, contains, hget]
  · intro sid
    rw [codecOf, codecOf, size, size, h.length_eq, hdescribe]

/-- State values **match** when every codec decodes them alike. -/
def Value.StateMatches (v w : Value) : Prop := ∀ c : Codec, c.decodeState v = c.decodeState w

@[refl] theorem Value.StateMatches.refl (v : Value) : v.StateMatches v := fun _ => rfl

/-- Matching state values of one type have the same violations. -/
theorem valueViolations_eq {types types' : TypeSystem} (htypes : types.Matches types')
    {v w : Value} (hstate : v.StateMatches w) (sid : SemId) (path : String) :
    valueViolations types sid v path = valueViolations types' sid w path := by
  have hdecode : (do (← types.codecOf sid).decodeState v) =
      (do (← types'.codecOf sid).decodeState w) := by
    rw [htypes.codecOf]
    exact bind_congr hstate
  rw [valueViolations, valueViolations, htypes.contains, hdecode]

/-- Assignments **match** when they have the same form, name the same transaction or secret, and,
where the state is structured, have matching states. -/
inductive Assignment.Matches (kind : StateKind) : Assignment → Assignment → Prop
  | revealed {x y : Seal} {v w : Value} (hseal : x.transaction = y.transaction)
      (hstate : kind = .structured → v.StateMatches w) :
      Matches kind (.revealed x v) (.revealed y w)
  | confidential {secret : SecretSeal} {v w : Value}
      (hstate : kind = .structured → v.StateMatches w) :
      Matches kind (.confidential secret v) (.confidential secret w)

/-- Matching assignments of one type, item by item. -/
structure Assignments.Matches (a b : Assignments) : Prop where
  kind : a.kind = b.kind
  items : List.Forall₂ (Assignment.Matches a.kind) a.items b.items

/-- Matching states of operations. -/
structure OperationState.Matches (s t : OperationState) : Prop where
  metadata : s.metadata.Agrees Value.StateMatches t.metadata
  globals : s.globals.Agrees (List.Forall₂ Value.StateMatches) t.globals
  assignments : s.assignments.Agrees Assignments.Matches t.assignments

/-- Matching transitions. Their types are shown alike and stand for the same number. -/
structure Transition.Matches (t u : Transition) : Prop where
  contractId : t.contractId = u.contractId
  isKey : t.type.isKey = u.type.isKey
  number : t.type.number? = u.type.number?
  display : t.type.display = u.type.display
  inputs : t.inputs.Perm u.inputs
  state : t.state.Matches u.state

/-- Matching operations. -/
inductive Operation.Matches : Operation → Operation → Prop
  | genesis {g h : Genesis} : g.state.Matches h.state → Matches (.genesis g) (.genesis h)
  | transition {t u : Transition} : t.Matches u → Matches (.transition t) (.transition u)

/-- Matching declarations of owned state are of the same kind and name the same type. -/
structure StateSchema.Matches (s t : StateSchema) : Prop where
  kind : s.kind = t.kind
  structured : ∀ sid, s = .structured sid ↔ t = .structured sid

/-- Matching schemas. Names count only in the text of a violation. -/
structure Schema.Matches (s t : Schema) : Prop where
  display : s.name.display = t.name.display
  metaTypes : s.metaTypes.Agrees (fun d e => d.type = e.type) t.metaTypes
  globalTypes : s.globalTypes.Agrees (fun d e => d.type = e.type ∧ d.maxItems = e.maxItems)
    t.globalTypes
  ownedTypes : s.ownedTypes.Agrees (fun d e => d.state.Matches e.state) t.ownedTypes
  genesis : s.genesis.SameParts t.genesis
  transitions : s.transitions.Agrees (fun d e => d.shape.SameParts e.shape) t.transitions

/-! ## Schemas -/

section

variable {s t : Schema} {types types' : TypeSystem} {shape shape' : OperationSchema}

theorem StateSchema.Matches.structured?_eq {d e : OwnedDetails} (h : d.state.Matches e.state) :
    Schema.structured? d = Schema.structured? e := by
  have hiff : ∀ x sid, Schema.structured? x = some sid ↔ x.state = .structured sid := by
    intro x sid
    unfold Schema.structured?
    cases x.state <;> simp
  exact Option.ext fun sid => by rw [hiff, hiff, h.structured]

/-- The shapes of operations in matching schemas have the same violations. -/
theorem Schema.Matches.shapeViolations_eq (hs : s.Matches t) (hshape : shape.SameParts shape')
    (path : String) : s.shapeViolations path shape = t.shapeViolations path shape' := by
  have hbounds : ∀ {b b' : Table Int Occurrences}, b.Agrees (· = ·) b' →
      ∀ {declared declared' : Int → Bool}, (∀ k, declared k = declared' k) →
        ∀ path what, boundViolations path what b declared = boundViolations path what b' declared' := by
    intro b b' hb declared declared' hdeclared path what
    rw [boundViolations, boundViolations, hb.sorted_eq orders_intLe]
    simp only [hdeclared]
  have hinputs := hshape.inputs
  rw [shapeViolations, shapeViolations, hbounds hshape.metadata hs.metaTypes.contains_eq,
    hbounds hshape.globals hs.globalTypes.contains_eq,
    hbounds hshape.assignments hs.ownedTypes.contains_eq]
  cases hb : shape.inputs with
  | none =>
    rw [hb] at hinputs
    generalize shape'.inputs = inputs at hinputs ⊢
    cases hinputs
    rfl
  | some b =>
    rw [hb] at hinputs
    generalize shape'.inputs = inputs at hinputs ⊢
    cases hinputs with
    | some hinputs =>
      dsimp only
      rw [hbounds hinputs hs.ownedTypes.contains_eq]

/-- Matching schemas have the same violations. -/
theorem Schema.Matches.violations_eq (hs : s.Matches t) (htypes : types.Matches types') :
    s.violations types = t.violations types' := by
  have hunresolved : ∀ path sid, unresolved types path sid = unresolved types' path sid := by
    intro path sid
    rw [unresolved, unresolved, htypes.contains]
  rw [violations, violations, unresolvedTypes, unresolvedTypes, hs.shapeViolations_eq hs.genesis]
  refine congrArg₂ (· ++ ·) (congrArg₂ (· ++ ·) (congrArg₂ (· ++ ·) (congrArg₂ (· ++ ·) ?_ ?_) ?_)
    rfl) ?_
  · refine flatMap_eq_of_forall₂ (hs.metaTypes.forall₂_sorted orders_intLe) ?_
    rintro ⟨k, d⟩ ⟨l, e⟩ ⟨rfl, hd⟩
    dsimp only at hd ⊢
    rw [hd, hunresolved]
  · refine flatMap_eq_of_forall₂ (hs.globalTypes.forall₂_sorted orders_intLe) ?_
    rintro ⟨k, d⟩ ⟨l, e⟩ ⟨rfl, hd⟩
    dsimp only at hd ⊢
    rw [hd.1, hunresolved]
  · refine flatMap_eq_of_forall₂ (hs.ownedTypes.forall₂_sorted orders_intLe) ?_
    rintro ⟨k, d⟩ ⟨l, e⟩ ⟨rfl, hd⟩
    dsimp only at hd ⊢
    rw [hd.structured?_eq]
    simp only [hunresolved]
  · refine flatMap_eq_of_forall₂ (hs.transitions.forall₂_sorted orders_intLe) ?_
    rintro ⟨k, d⟩ ⟨l, e⟩ ⟨rfl, hd⟩
    exact hs.shapeViolations_eq hd _

/-- Matching schemas have the same places of validation scripts. -/
theorem Schema.Matches.libSites_eq (hs : s.Matches t) : s.libSites = t.libSites := by
  rw [libSites, libSites, hs.genesis.validator]
  refine congrArg _ (filterMap_eq_of_forall₂ (hs.transitions.forall₂_sorted orders_intLe) ?_)
  rintro ⟨k, d⟩ ⟨l, e⟩ ⟨rfl, hd⟩
  dsimp only at hd ⊢
  rw [hd.validator]

/-- A type of transition has matching shapes in matching schemas, or none in both. -/
theorem Schema.Matches.transitionShape? (hs : s.Matches t) {v w : Value} (hkey : v.isKey = w.isKey)
    (hnumber : v.number? = w.number?) :
    (s.transitionShape? v = t.transitionShape? w ∧ ∀ shape, s.transitionShape? v ≠ .ok (some shape)) ∨
      ∃ shape shape', s.transitionShape? v = .ok (some shape) ∧
        t.transitionShape? w = .ok (some shape') ∧ shape.SameParts shape' := by
  unfold Schema.transitionShape?
  rw [hkey, hnumber]
  split
  · cases w.number? with
    | none => exact .inl ⟨rfl, fun shape h => by cases h⟩
    | some n =>
      simp only [Option.bind_some]
      rcases hs.transitions.none_or_some n with ⟨hn, hn'⟩ | ⟨d, e, hn, hn', hshape⟩
      · exact .inl (by simp [hn, hn'])
      · exact .inr ⟨_, _, by rw [hn]; rfl, by rw [hn']; rfl, hshape⟩
  · exact .inl ⟨rfl, fun shape h => by cases h⟩

end

/-! ## Findings of operations -/

namespace Operation

theorem Matches.state {o p : Operation} (h : o.Matches p) : o.state.Matches p.state := by
  cases h with
  | genesis h => exact h
  | transition h => exact h.state

theorem Matches.inputs {o p : Operation} (h : o.Matches p) : o.inputs.Perm p.inputs := by
  cases h with
  | genesis => exact .nil
  | transition h => exact h.inputs

theorem Matches.isGenesis {o p : Operation} (h : o.Matches p) : o.isGenesis = p.isGenesis := by
  cases h <;> rfl

/-- Matching contexts: the same place, matching schemas, type systems and shapes. -/
structure Context.Matches (c d : Context) : Prop where
  schema : c.schema.Matches d.schema
  types : c.types.Matches d.types
  shape : c.shape.SameParts d.shape
  path : c.path = d.path

variable {o p : Operation} {c d : Context}

theorem Matches.metadataViolations_eq (h : o.Matches p) (hc : c.Matches d) :
    o.metadataViolations c = p.metadataViolations d := by
  have hstate := h.state.metadata
  rw [metadataViolations, metadataViolations, hc.path, hc.shape.metadata.sorted_eq orders_intLe]
  simp only [hstate.contains_eq, hc.shape.metadata.get?_eq]
  refine congrArg (· >>= _) (mapM_eq_of_forall₂ (hstate.forall₂_sorted orders_intLe) ?_)
  rintro ⟨k, v⟩ ⟨l, w⟩ ⟨rfl, hvw⟩
  dsimp only
  rcases hc.schema.metaTypes.none_or_some k with ⟨hx, hy⟩ | ⟨x, y, hx, hy, hxy⟩
  · rw [hx, hy]
    cases d.shape.metadata.get? k <;> rfl
  · rw [hx, hy]
    cases d.shape.metadata.get? k with
    | none => rfl
    | some =>
      dsimp only
      rw [hxy, valueViolations_eq hc.types hvw]

theorem Matches.globalsViolations_eq (h : o.Matches p) (hc : c.Matches d) :
    o.globalsViolations c = p.globalsViolations d := by
  have hstate := h.state.globals
  have hlength : ∀ k, ((o.state.globals.get? k).getD []).length =
      ((p.state.globals.get? k).getD []).length := by
    intro k
    rcases hstate.none_or_some k with ⟨hx, hy⟩ | ⟨xs, ys, hx, hy, hxy⟩
    · rw [hx, hy]
    · rw [hx, hy]
      exact hxy.length_eq
  rw [globalsViolations, globalsViolations, hc.path, hc.shape.globals.sorted_eq orders_intLe]
  simp only [hlength, hc.shape.globals.get?_eq]
  refine congrArg (· >>= _) (mapM_eq_of_forall₂ (hstate.forall₂_sorted orders_intLe) ?_)
  rintro ⟨k, vs⟩ ⟨l, ws⟩ ⟨rfl, hitems⟩
  dsimp only
  rcases hc.schema.globalTypes.none_or_some k with ⟨hx, hy⟩ | ⟨x, y, hx, hy, hxy⟩
  · rw [hx, hy]
    cases d.shape.globals.get? k <;> rfl
  · rw [hx, hy]
    cases d.shape.globals.get? k with
    | none => rfl
    | some =>
      dsimp only
      rw [globalViolations, globalViolations, hxy.1, hxy.2, hitems.length_eq]
      refine congrArg (· >>= _) (mapM_eq_of_forall₂ (forall₂_zipIdx hitems 0) ?_)
      rintro ⟨v, i⟩ ⟨w, j⟩ ⟨hvw, rfl⟩
      exact valueViolations_eq hc.types hvw y.type _

/-- Matching assignments of a declared type have the same violations. -/
theorem Matches.assignmentViolations_eq (h : o.Matches p) (hc : c.Matches d) {s t : StateSchema}
    (hst : s.Matches t) {a b : Assignment} (hab : a.Matches s.kind b) (path : String) :
    o.assignmentViolations c s path a = p.assignmentViolations d t path b := by
  have hstate : s.kind = .structured → a.state.StateMatches b.state := by
    cases hab with
    | revealed _ hstate => exact hstate
    | confidential hstate => exact hstate
  unfold assignmentViolations
  rw [h.isGenesis]
  -- both declarations are structured, of one type, or neither is
  cases s with
  | structured sid =>
    obtain rfl := (hst.structured sid).1 rfl
    dsimp only
    rw [valueViolations_eq hc.types (hstate rfl)]
    cases p.isGenesis <;> cases hab <;> simp_all
  | declarative | fungible =>
    cases t with
    | structured sid => cases (hst.structured sid).2 rfl
    | _ => cases p.isGenesis <;> cases hab <;> simp_all

/-- Matching lists of assignments of a declared type have the same violations. -/
theorem Matches.typeViolations_eq (h : o.Matches p) (hc : c.Matches d) {s t : StateSchema}
    (hst : s.Matches t) {a b : Assignments} (hab : a.Matches b) (path : String) :
    o.typeViolations c s path a = p.typeViolations d t path b := by
  rw [typeViolations, typeViolations, ← hab.kind, ← hst.kind]
  by_cases hkind : a.kind = s.kind
  · simp only [ne_eq, hkind, not_true_eq_false, if_false, Assignments.positioned, List.mapM_map]
    refine congrArg (· >>= _) (mapM_eq_of_forall₂ (forall₂_zipIdx hab.items 0) ?_)
    rintro ⟨x, i⟩ ⟨y, j⟩ ⟨hxy, rfl⟩
    exact h.assignmentViolations_eq hc hst (hkind ▸ hxy) _
  · simp [hkind]

theorem Matches.assignmentsViolations_eq (h : o.Matches p) (hc : c.Matches d) :
    o.assignmentsViolations c = p.assignmentsViolations d := by
  have hcount : ∀ type, ((o.state.assignments.get? type).map fun a => a.items.length) =
      (p.state.assignments.get? type).map fun a => a.items.length := by
    intro type
    rcases h.state.assignments.none_or_some type with ⟨ha, hb⟩ | ⟨a, b, ha, hb, hab⟩
    · rw [ha, hb]
    · rw [ha, hb]
      exact congrArg some hab.items.length_eq
  rw [assignmentsViolations, assignmentsViolations, hc.path,
    hc.shape.assignments.sorted_eq orders_intLe]
  simp only [hcount, hc.shape.assignments.get?_eq]
  refine congrArg (· >>= _) ?_
  refine mapM_eq_of_forall₂ (h.state.assignments.forall₂_sorted orders_intLe) ?_
  rintro ⟨k, a⟩ ⟨l, b⟩ ⟨rfl, hab⟩
  rcases hc.schema.ownedTypes.none_or_some k with ⟨hx, hy⟩ | ⟨x, y, hx, hy, hxy⟩
  · simp only [hx, hy]
    cases d.shape.assignments.get? k <;> rfl
  · simp only [hx, hy]
    cases d.shape.assignments.get? k with
    | none => rfl
    | some => exact h.typeViolations_eq hc hxy hab _

theorem Matches.inputsViolations_eq (h : o.Matches p) (hc : c.Matches d) {b b' : Table Int Occurrences}
    (hb : b.Agrees (· = ·) b') : o.inputsViolations c b = p.inputsViolations d b' := by
  have htypes : (distinct (o.inputs.map Opout.type)).mergeSort intLe =
      (distinct (p.inputs.map Opout.type)).mergeSort intLe := by
    refine orders_intLe.mergeSort_eq ?_
    rw [List.perm_ext_iff_of_nodup (Table.nodup_distinct _) (Table.nodup_distinct _)]
    simp only [mem_distinct, (h.inputs.map Opout.type).mem_iff, implies_true]
  have hcount : ∀ type, o.inputCount type = p.inputCount type := fun type => h.inputs.countP_eq _
  rw [inputsViolations, inputsViolations, htypes, hc.path, hb.sorted_eq orders_intLe]
  simp only [hb.contains_eq, hc.schema.ownedTypes.contains_eq, hcount]

theorem Matches.fieldViolations_eq (h : o.Matches p) (hc : c.Matches d) :
    o.fieldViolations c = p.fieldViolations d := by
  have hinputs := hc.shape.inputs
  rw [fieldViolations, fieldViolations, h.metadataViolations_eq hc, h.globalsViolations_eq hc,
    h.assignmentsViolations_eq hc]
  generalize c.shape.inputs = x at hinputs ⊢
  generalize d.shape.inputs = y at hinputs ⊢
  cases hinputs with
  | none => rfl
  | some hb => simp only [h.inputsViolations_eq hc hb]

/-- Matching operations have the same findings. -/
theorem Matches.findings_eq (h : o.Matches p) {s t : Schema} (hs : s.Matches t)
    {types types' : TypeSystem} (htypes : types.Matches types') (path : String) :
    o.findings s types path = p.findings t types' path := by
  cases h with
  | genesis hstate =>
    exact fieldViolations_eq (.genesis hstate) ⟨hs, htypes, hs.genesis, rfl⟩
  | transition htu =>
    rw [findings, findings]
    rcases hs.transitionShape? htu.isKey htu.number with ⟨hsame, hnone⟩ | ⟨shape, shape', hv, hw, hshape⟩
    · rw [← hsame]
      generalize s.transitionShape? _ = found at hnone ⊢
      rcases found with e | _ | shape
      · rfl
      · show Except.ok _ = Except.ok _
        rw [htu.display, hs.display]
      · exact absurd rfl (hnone shape)
    · rw [hv, hw]
      exact fieldViolations_eq (.transition htu) ⟨hs, htypes, hshape, rfl⟩

end Operation

/-! ## Findings of consignments -/

/-- Matching bundles have the same id, or none has one, and so have their known transitions. -/
structure Bundle.Matches (a b : Bundle) : Prop where
  bundleId : a.bundleId.toOption = b.bundleId.toOption
  inputMap : a.inputMap.Agrees (· = ·) b.inputMap
  known : a.known.Agrees (fun t u => t.opId.toOption = u.opId.toOption ∧ t.Matches u) b.known

/-- Matching consignments, with the same identifiers. -/
structure Consignment.Matches (c d : Consignment) : Prop where
  schemaId : c.schema.schemaId.toOption = d.schema.schemaId.toOption
  genesisId : (Operation.genesis c.genesis).opId.toOption =
    (Operation.genesis d.genesis).opId.toOption
  reference : c.genesis.schemaId = d.genesis.schemaId
  genesis : c.genesis.state.Matches d.genesis.state
  schema : c.schema.Matches d.schema
  types : c.types.Matches d.types
  bundles : List.Forall₂ (fun v w => v.bundle.Matches w.bundle) c.bundles d.bundles
  terminals : c.terminals.Agrees List.Perm d.terminals
  scripts : c.scripts.Perm d.scripts

/-- Matching transitions of bundles, with their identifiers. -/
structure IndexedTransition.Matches (t u : IndexedTransition) : Prop where
  key : t.key = u.key
  opId : t.opId = u.opId
  transition : t.transition.Matches u.transition

/-- Matching bundles with their identifiers. -/
structure IndexedBundle.Matches (a b : IndexedBundle) : Prop where
  bundleId : a.bundleId = b.bundleId
  inputMap : a.inputMap.Agrees (· = ·) b.inputMap
  transitions : List.Forall₂ IndexedTransition.Matches a.transitions b.transitions

/-- Matching bundles match with their identifiers. -/
theorem WitnessBundle.matches_indexed {v w : WitnessBundle} (h : v.bundle.Matches w.bundle) :
    v.indexed.Matches w.indexed where
  bundleId := h.bundleId
  inputMap := h.inputMap
  transitions := by
    rw [indexed, indexed, List.forall₂_map_left_iff, List.forall₂_map_right_iff]
    refine (h.known.forall₂_sorted Id.orders_le).imp ?_
    rintro ⟨k, t⟩ ⟨l, u⟩ ⟨rfl, hid, htu⟩
    exact ⟨rfl, hid, htu⟩

/-- Matching assignments conceal the same seals. -/
theorem Assignments.Matches.secrets_eq {a b : Assignments} (h : a.Matches b) :
    a.secrets = b.secrets := by
  refine filterMap_eq_of_forall₂ h.items fun x y hxy => ?_
  cases hxy <;> rfl

/-- Matching bundles conceal the same seals. -/
theorem IndexedBundle.Matches.mem_secrets {a b : IndexedBundle} (h : a.Matches b) (s : SecretSeal) :
    s ∈ a.secrets ↔ s ∈ b.secrets := by
  refine mem_flatMap_of_forall₂ h.transitions fun t u htu =>
    htu.transition.state.assignments.mem_flatMap_values fun x y hxy => ?_
  rw [hxy.secrets_eq]

namespace Consignment.Matches

variable {c d : Consignment} (h : c.Matches d)

include h

theorem contractId_eq : c.indexed.contractId = d.indexed.contractId := by
  have hid := h.genesisId
  show c.genesis.contractId.toOption = d.genesis.contractId.toOption
  rw [Genesis.contractId, Genesis.contractId]
  cases hc : (Operation.genesis c.genesis).opId <;> cases hd : (Operation.genesis d.genesis).opId <;>
    simp_all [Except.toOption]

/-- The bundles of matching consignments match with their identifiers. -/
theorem bundles_indexed :
    List.Forall₂ IndexedBundle.Matches c.indexed.bundles d.indexed.bundles := by
  show List.Forall₂ _ (c.bundles.map _) (d.bundles.map _)
  rw [List.forall₂_map_left_iff, List.forall₂_map_right_iff]
  exact h.bundles.imp fun v w => WitnessBundle.matches_indexed

/-- The operations of matching consignments match, in order, and have the same ids. -/
theorem operations : List.Forall₂ (fun x y => x.opId.toOption = y.opId.toOption ∧ x.Matches y)
    c.operations d.operations := by
  refine .cons ⟨h.genesisId, .genesis h.genesis⟩ ?_
  refine List.rel_flatMap h.bundles fun v w hvw => ?_
  rw [List.forall₂_map_left_iff, List.forall₂_map_right_iff]
  refine (hvw.known.forall₂_sorted Id.orders_le).imp ?_
  rintro x y ⟨-, hid, hxy⟩
  exact ⟨hid, .transition hxy⟩

/-- The operations that have an id match, in order, and have the same ids. -/
theorem identified :
    List.Forall₂ (fun x y => x.1 = y.1 ∧ x.2.Matches y.2) c.identified d.identified := by
  refine List.rel_filterMap (fun x y hxy => ?_) h.operations
  rw [hxy.1]
  cases y.opId.toOption with
  | none => exact .none
  | some id => exact .some ⟨rfl, hxy.2⟩

/-- Under every id there are matching operations, or there is none. -/
theorem operations_indexed : c.indexed.operations.Agrees Operation.Matches d.indexed.operations := by
  have hlookup : ∀ {xs ys : List (OpId × Operation)},
      List.Forall₂ (fun x y => x.1 = y.1 ∧ x.2.Matches y.2) xs ys → ∀ id,
        Option.Rel Operation.Matches (xs.lookup id) (ys.lookup id) := by
    intro xs ys hxs id
    induction hxs with
    | nil => exact .none
    | @cons x y _ _ hxy _ ih =>
      rw [Table.lookup_cons_eq_ite, Table.lookup_cons_eq_ite, hxy.1]
      split
      · exact .some hxy.2
      · exact ih
  intro id
  rw [indexed, indexed, Table.get?_foldl_putNew, Table.get?_foldl_putNew]
  exact hlookup h.identified id

/-- The operations of matching consignments have the same ids in the same order. -/
theorem keys_indexed : c.indexed.operations.keys = d.indexed.operations.keys := by
  rw [indexed, indexed, Table.keys_foldl_putNew, Table.keys_foldl_putNew]
  refine congrArg distinct ?_
  have hkeys := h.identified.imp fun x y hxy => hxy.1
  rw [← List.forall₂_eq_eq_eq, List.forall₂_map_left_iff, List.forall₂_map_right_iff]
  exact hkeys

theorem genesisFindings_eq : c.genesisFindings c.indexed = d.genesisFindings d.indexed := by
  have hreference : c.referenceViolations c.indexed = d.referenceViolations d.indexed := by
    have hid : c.indexed.schemaId = d.indexed.schemaId := h.schemaId
    rw [referenceViolations, referenceViolations, hid, h.reference]
  rw [genesisFindings, genesisFindings, hreference, h.schema.violations_eq h.types,
    (Operation.Matches.genesis h.genesis).findings_eq h.schema h.types]

/-- Every input has the same violations in both consignments. -/
theorem inputViolations_eq {m m' : Table Opout OpId} (hm : m.Agrees (· = ·) m')
    (bundle path : String) (id : Option OpId) : inputViolations c.indexed m bundle path id =
      inputViolations d.indexed m' bundle path id := by
  funext input
  unfold inputViolations
  rw [hm.get?_eq]
  refine congrArg (· ++ _) ?_
  rcases h.operations_indexed.none_or_some input.op with ⟨hc, hd⟩ | ⟨x, y, hc, hd, hxy⟩
  · rw [hc, hd]
  · rw [hc, hd]
    dsimp only
    rcases hxy.state.assignments.none_or_some input.type with ⟨hx, hy⟩ | ⟨a, b, hx, hy, hab⟩
    · rw [hx, hy]
    · rw [hx, hy]
      dsimp only
      rw [hab.items.length_eq]

/-- Matching transitions of matching bundles have the same violations. -/
theorem transitionFindings_eq {m m' : Table Opout OpId} (hm : m.Agrees (· = ·) m')
    {t u : IndexedTransition} (htu : t.Matches u) (bundle : String) :
    c.transitionFindings c.indexed m bundle t = d.transitionFindings d.indexed m' bundle u := by
  have hinputs : t.transition.sortedInputs = u.transition.sortedInputs :=
    Opout.orders_le.mergeSort_eq htu.transition.inputs
  rw [transitionFindings, transitionFindings, carriedViolations, carriedViolations,
    contractViolations, contractViolations, hinputs, h.contractId_eq, htu.transition.contractId,
    htu.opId, htu.key, h.inputViolations_eq hm,
    (Operation.Matches.transition htu.transition).findings_eq h.schema h.types]

theorem bundleFindings_eq {a b : IndexedBundle} (hab : a.Matches b) (i : Nat) :
    c.bundleFindings c.indexed a i = d.bundleFindings d.indexed b i := by
  rw [bundleFindings, bundleFindings,
    mapM_eq_of_forall₂ hab.transitions fun t u htu => h.transitionFindings_eq hab.inputMap htu _]

theorem terminalViolations_eq : c.terminalViolations c.indexed = d.terminalViolations d.indexed := by
  -- under every id both consignments have a bundle last, and these match
  have hbundle : ∀ id, Option.Rel IndexedBundle.Matches (c.indexed.bundle? id)
      (d.indexed.bundle? id) := by
    intro id
    have hfind : ∀ {xs ys : List IndexedBundle}, List.Forall₂ IndexedBundle.Matches xs ys →
        Option.Rel IndexedBundle.Matches (xs.find? fun b => b.bundleId == some id)
          (ys.find? fun b => b.bundleId == some id) := by
      intro xs ys hxs
      induction hxs with
      | nil => exact .none
      | cons hxy _ ih =>
        rw [List.find?_cons, List.find?_cons, hxy.bundleId]
        split
        · exact .some hxy
        · exact ih
    exact hfind (List.rel_reverse h.bundles_indexed)
  refine flatMap_eq_of_forall₂ (h.terminals.forall₂_sorted Id.orders_le) ?_
  rintro ⟨id, seals⟩ ⟨id', seals'⟩ ⟨rfl, hseals⟩
  have hid := hbundle id
  dsimp only at hseals ⊢
  rw [Id.orders_le.mergeSort_eq hseals]
  generalize c.indexed.bundle? id = x at hid ⊢
  generalize d.indexed.bundle? id = y at hid ⊢
  cases hid with
  | none => rfl
  | @some a b hab =>
    have hcontains : ∀ s, a.secrets.contains s = b.secrets.contains s := by
      intro s
      rw [Bool.eq_iff_iff, List.contains_iff_mem, List.contains_iff_mem, hab.mem_secrets]
    simp only [hcontains]

theorem scriptViolations_eq : c.scriptViolations = d.scriptViolations := by
  have hcontains : ∀ id, c.libraryIds.contains id = d.libraryIds.contains id := by
    intro id
    rw [Bool.eq_iff_iff, List.contains_iff_mem, List.contains_iff_mem]
    exact (h.scripts.map libraryId).mem_iff
  rw [scriptViolations, scriptViolations, h.schema.libSites_eq]
  simp only [hcontains]

/-- Matching consignments have the same findings besides faults. -/
theorem otherFindings_eq : c.otherFindings c.indexed = d.otherFindings d.indexed := by
  have hbundles := mapM_eq_of_forall₂ (f := fun x => c.bundleFindings c.indexed x.1 x.2)
    (g := fun x => d.bundleFindings d.indexed x.1 x.2) (forall₂_zipIdx h.bundles_indexed 0)
    fun x y hxy => by rw [h.bundleFindings_eq hxy.1, hxy.2]
  rw [otherFindings, otherFindings, h.genesisFindings_eq, h.terminalViolations_eq,
    h.scriptViolations_eq, hbundles]

end Consignment.Matches

end StrictContract
