import StrictContract.Codec.Write

/-! # Outcomes — when a computation that can fail gives a result

Laws of `Except Failure` that take a successful computation apart: a sequence of steps succeeds when
every step does, a loop succeeds when every round does, and naming the place of a computation changes
only its errors. -/

namespace StrictContract

variable {α β : Type}

/-- A pure step in front of others. -/
theorem ok_bind (a : α) (f : α → Except Failure β) : (Except.ok a >>= f) = f a := rfl

/-- A sequence of two steps succeeds when both do. -/
theorem bind_eq_ok {x : Except Failure α} {f : α → Except Failure β} {b : β} :
    (x >>= f) = .ok b ↔ ∃ a, x = .ok a ∧ f a = .ok b := by
  cases x with
  | error e =>
    constructor
    · intro h; cases h
    · rintro ⟨a, ha, -⟩; cases ha
  | ok a =>
    constructor
    · intro h; exact ⟨a, rfl, h⟩
    · rintro ⟨a', ha, h⟩; cases ha; exact h

/-- A step followed by a pure function succeeds when the step does. -/
theorem map_eq_ok {x : Except Failure α} {f : α → β} {b : β} :
    (f <$> x) = .ok b ↔ ∃ a, x = .ok a ∧ f a = b := by
  cases x with
  | error e =>
    constructor
    · intro h; cases h
    · rintro ⟨a, ha, -⟩; cases ha
  | ok a =>
    constructor
    · intro h; cases h; exact ⟨a, rfl, rfl⟩
    · rintro ⟨a', ha, h⟩; cases ha; rw [← h]; rfl

/-- What is made of the result of a step exists when the step succeeds. -/
theorem exists_made {α β : Type} {x : Except Failure α} {f : α → β} :
    (∃ b, (do return f (← x)) = Except.ok b) ↔ ∃ a, x = .ok a := by
  constructor
  · rintro ⟨b, h⟩
    obtain ⟨a, ha, -⟩ := bind_eq_ok.1 h
    exact ⟨a, ha⟩
  · rintro ⟨a, rfl⟩
    exact ⟨f a, rfl⟩

/-- The result of a pure step. -/
theorem pure_eq_ok {a b : α} : (pure a : Except Failure α) = .ok b ↔ a = b := by
  constructor
  · intro h; cases h; rfl
  · rintro rfl; rfl

/-- A failure gives no result. -/
@[simp] theorem fail_ne_ok {c : Cause} {a : α} : fail c ≠ .ok a := nofun

/-- A misuse gives no result. -/
@[simp] theorem misuse_ne_ok {m : Misuse} {a : α} : misuse m ≠ .ok a := nofun

/-- A step behind a refusal succeeds when there is no reason to refuse. -/
theorem unless_eq_ok {b : Prop} [Decidable b] {e : Failure} {f : Unit → Except Failure α} {a : α} :
    (if b then Except.error e >>= f else f ()) = .ok a ↔ ¬ b ∧ f () = .ok a := by
  by_cases h : b
  · rw [if_pos h]
    constructor
    · intro h'; cases h'
    · intro h'; exact absurd h h'.1
  · rw [if_neg h]
    exact ⟨fun h' => ⟨h, h'⟩, And.right⟩

/-- Naming the place of a computation does not change its result. -/
@[simp] theorem inside_eq_ok {segment : String} {x : Except Failure α} {a : α} :
    inside segment x = .ok a ↔ x = .ok a := by
  cases x with
  | error e => simp
  | ok b => simp

/-- Naming the entry of a collection does not change the result of a computation. -/
@[simp] theorem insideEntry_eq_ok {key : Value} {x : Except Failure α} {a : α} :
    insideEntry key x = .ok a ↔ x = .ok a := by
  cases x with
  | ok b => simp [insideEntry]
  | error e =>
    cases e with
    | strict e =>
      constructor
      · intro h
        obtain ⟨label, -, h⟩ := bind_eq_ok.1 h
        cases h
      · intro h; cases h
    | _ => simp [insideEntry]

/-- The result of a computation, if it has one. -/
theorem toOption_eq_some {x : Except Failure α} {a : α} : x.toOption = some a ↔ x = .ok a := by
  cases x with
  | error e => simp [Except.toOption]
  | ok b => simp [Except.toOption]

/-! ## Loops -/

/-- A list whose items are images of a function is the image of a list. -/
theorem exists_eq_map {f : α → β} {P : α → Prop} {ys : List β}
    (h : ∀ y ∈ ys, ∃ x, f x = y ∧ P x) :
    ∃ xs : List α, ys = xs.map f ∧ ∀ x ∈ xs, P x := by
  induction ys with
  | nil => exact ⟨[], rfl, nofun⟩
  | cons y ys ih =>
    rw [List.forall_mem_cons] at h
    obtain ⟨x, rfl, hx⟩ := h.1
    obtain ⟨xs, rfl, hxs⟩ := ih h.2
    exact ⟨x :: xs, rfl, List.forall_mem_cons.2 ⟨hx, hxs⟩⟩

/-- A list of values of a function is the image of a list. -/
theorem exists_map_eq {f : α → β} {ys : List β} (h : ∀ y ∈ ys, ∃ x, f x = y) :
    ∃ xs : List α, xs.map f = ys := by
  obtain ⟨xs, rfl, -⟩ := exists_eq_map (P := fun _ => True) fun y hy =>
    (h y hy).imp fun x hx => ⟨hx, trivial⟩
  exact ⟨xs, rfl⟩

/-- A loop that succeeds pairs every item with the result of its round. -/
theorem mapM_eq_ok {f : α → Except Failure β} {xs : List α} {ys : List β} :
    xs.mapM f = .ok ys ↔
      ∃ ps : List (α × β), xs = ps.map Prod.fst ∧ ys = ps.map Prod.snd ∧ ∀ q ∈ ps, f q.1 = .ok q.2 := by
  induction xs generalizing ys with
  | nil =>
    rw [List.mapM_nil, pure_eq_ok]
    constructor
    · rintro rfl; exact ⟨[], rfl, rfl, nofun⟩
    · rintro ⟨ps, hx, rfl, -⟩
      rw [List.map_eq_nil_iff.1 hx.symm, List.map_nil]
  | cons x xs ih =>
    rw [List.mapM_cons, bind_eq_ok]
    constructor
    · rintro ⟨y, hy, h⟩
      obtain ⟨ys', hys, h⟩ := bind_eq_ok.1 h
      obtain ⟨ps, rfl, rfl, hps⟩ := ih.1 hys
      exact ⟨(x, y) :: ps, rfl, (pure_eq_ok.1 h).symm, List.forall_mem_cons.2 ⟨hy, hps⟩⟩
    · rintro ⟨ps, hx, rfl, hps⟩
      obtain ⟨q, qs, rfl, rfl, rfl⟩ := List.map_eq_cons_iff.1 hx.symm
      rw [List.forall_mem_cons] at hps
      exact ⟨q.2, hps.1, bind_eq_ok.2 ⟨_, ih.2 ⟨qs, rfl, rfl, hps.2⟩, rfl⟩⟩

/-- Results that all exist are the outcomes of which they are collected. -/
theorem filterMap_toOption {f : α → Except Failure β} {xs : List α}
    (h : ∀ x ∈ xs, ∃ y, f x = .ok y) :
    xs.map f = (xs.filterMap fun x => (f x).toOption).map .ok := by
  induction xs with
  | nil => rfl
  | cons x xs ih =>
    rw [List.forall_mem_cons] at h
    obtain ⟨y, hy⟩ := h.1
    rw [List.map_cons, ih h.2, List.filterMap_cons, hy]
    rfl

/-- A loop whose rounds know their position only to name their place succeeds like the loop without
positions. -/
theorem mapM_zipIdx_eq_ok {f : α → Except Failure β} {xs : List α} {ys : List β} (n : Nat) :
    (xs.zipIdx n).mapM (fun (x, i) => inside (indexSegment i) (f x)) = .ok ys ↔
      xs.mapM f = .ok ys := by
  induction xs generalizing n ys with
  | nil => simp
  | cons x xs ih =>
    rw [List.zipIdx_cons, List.mapM_cons, List.mapM_cons, bind_eq_ok, bind_eq_ok]
    simp only [inside_eq_ok, bind_eq_ok, ih]

/-- A loop over images succeeds alike for two functions whose images are treated alike. -/
theorem mapM_map_congr {γ : Type} {f g : γ → α} {s : α → Except Failure β} {xs : List γ}
    (h : ∀ c ∈ xs, ∀ b, s (f c) = .ok b ↔ s (g c) = .ok b) (ys : List β) :
    (xs.map f).mapM s = .ok ys ↔ (xs.map g).mapM s = .ok ys := by
  induction xs generalizing ys with
  | nil => rfl
  | cons x xs ih =>
    rw [List.forall_mem_cons] at h
    simp only [List.map_cons, List.mapM_cons, bind_eq_ok, h.1, ih h.2]

/-- A loop that only checks its items succeeds when every check does. -/
theorem forIn_eq_ok {f : α → Except Failure Unit} {xs : List α} {u : PUnit} :
    (forIn xs PUnit.unit fun x _ => do
      f x
      pure (ForInStep.yield PUnit.unit)) = Except.ok u ↔ ∀ x ∈ xs, f x = .ok () := by
  induction xs with
  | nil => simp [pure, Except.pure]
  | cons x xs ih =>
    rw [List.forIn_cons, List.forall_mem_cons, bind_eq_ok]
    simp only [bind_eq_ok, pure_eq_ok]
    constructor
    · rintro ⟨_, ⟨_, hx, rfl⟩, h⟩
      exact ⟨hx, ih.1 h⟩
    · rintro ⟨hx, h⟩
      exact ⟨_, ⟨(), hx, rfl⟩, ih.2 h⟩

/-! ## Computations with a state -/

/-- A step followed by another one that depends on its result, both with a state. -/
theorem bind_apply {σ : Type} (m : ExceptT Failure (StateM σ) α)
    (f : α → ExceptT Failure (StateM σ) β) (s : σ) :
    (m >>= f) s =
      match m s with
      | (.ok a, s') => f a s'
      | (.error e, s') => (.error e, s') := by
  show StateT.bind m (ExceptT.bindCont f) s = _
  unfold StateT.bind
  rcases m s with ⟨_ | _, _⟩ <;> rfl

/-- A step followed by another one gives a result if both do. -/
theorem bind_apply_eq_ok {σ : Type} {m : ExceptT Failure (StateM σ) α}
    {f : α → ExceptT Failure (StateM σ) β} {s s'' : σ} {b : β} :
    (m >>= f) s = (.ok b, s'') ↔ ∃ a s', m s = (.ok a, s') ∧ f a s' = (.ok b, s'') := by
  rw [bind_apply]
  rcases m s with ⟨e | a, s'⟩
  · exact iff_of_false (fun h => nomatch h) fun ⟨_, _, h, _⟩ => nomatch h
  · constructor
    · exact fun h => ⟨a, s', rfl, h⟩
    · rintro ⟨_, _, ⟨⟩, h⟩
      exact h

/-- A computation with a state of which the failures are handled. -/
theorem tryCatch_apply {σ : Type} (m : ExceptT Failure (StateM σ) α)
    (handle : Failure → ExceptT Failure (StateM σ) α) (s : σ) :
    tryCatch m handle s =
      match m s with
      | (.ok a, s') => (.ok a, s')
      | (.error e, s') => handle e s' := by
  show ExceptT.tryCatch m handle s = _
  unfold ExceptT.tryCatch ExceptT.mk
  simp only [bind, StateT.bind]
  rcases m s with ⟨_ | _, _⟩ <;> rfl

end StrictContract
