import StrictContract.Proofs.TypeLibrary.Form
import StrictContract.Proofs.TypeSystem.Defining
import StrictContract.Proofs.TypeSystem.Founded

/-! # Workbenches — what runs of the compiler leave behind

Compiling inserts definitions and remembers the ids of names; neither is ever changed or lost. A run
that succeeds **achieves** a fact about its result when the fact holds then, and the facts of interest
last while the workbench grows. So the steps of a run can be looked at one after another. -/

namespace StrictContract

open TypeSystem

variable {α β : Type}

/-! ## Growing -/

/-- A draft **stands** in a type system under an id: it obeys the rules, has this id, and the id is
taken, as are those that the draft refers to. -/
structure TypeSystem.Stands (ts : TypeSystem) (d : Draft) (sid : SemId) : Prop where
  valid : d.validate = .ok ()
  named : d.semId = .ok sid
  closed : ∀ ref ∈ d.references, ts.contains ref = true
  held : ts.contains sid = true

theorem TypeSystem.Stands.mono {ts ts' : TypeSystem} {d : Draft} {sid : SemId}
    (h : ts.Stands d sid) (hextends : ts.Extends ts') : ts'.Stands d sid :=
  ⟨h.valid, h.named, fun ref href => hextends.contains (h.closed ref href),
    hextends.contains h.held⟩

/-- What is inserted stands. -/
theorem TypeSystem.stands_of_insert {ts ts' : TypeSystem} {d : Draft} {sid : SemId}
    (h : ts.insert d = .ok (sid, ts')) : ts'.Stands d sid := by
  obtain ⟨hvalid, hclosed, hsid, -⟩ := insert_eq_ok h
  exact ⟨hvalid, hsid, fun ref href => (extends_of_insert h).contains (hclosed ref href),
    contains_of_insert h⟩

/-- A workbench **grows** when definitions are inserted and names come behind those that are
there. -/
structure Workbench.Grows (w w' : Workbench) : Prop where
  types : Growth.Insertions w.types w'.types
  names : w.names <+: w'.names

namespace Workbench.Grows

variable {w w' w'' : Workbench}

theorem refl (w : Workbench) : w.Grows w := ⟨.refl _, List.prefix_refl _⟩

theorem trans (h : w.Grows w') (h' : w'.Grows w'') : w.Grows w'' :=
  ⟨h.types.trans h'.types, h.names.trans h'.names⟩

/-- A name keeps its id. -/
theorem lookup (h : w.Grows w') {name : String} {sid : SemId}
    (hsid : w.names.lookup name = some sid) : w'.names.lookup name = some sid := by
  obtain ⟨added, hadded⟩ := h.names
  rw [← hadded, List.lookup_append, hsid]
  rfl

end Workbench.Grows

/-- A fact about a result that **lasts** while the workbench grows. -/
def Lasting (Q : Workbench → α → Prop) : Prop := ∀ w w' a, w.Grows w' → Q w a → Q w' a

/-- A property of workbenches that is **stable** under insertions. -/
def Stable (P : Workbench → Prop) : Prop :=
  ∀ w ts', P w → Growth.Insertions w.types ts' → P { w with types := ts' }

namespace Compiling

/-! ## Runs that succeed -/

/-- A computation **achieves** a fact about its result: a run that succeeds lets the workbench grow,
keeps the property `P` of it, and gives a result with the fact `Q`. -/
def Achieves (P : Workbench → Prop) (m : Compiling α) (Q : Workbench → α → Prop) : Prop :=
  ∀ w, P w → ∀ a w', m w = (.ok a, w') → w.Grows w' ∧ P w' ∧ Q w' a

variable {P : Workbench → Prop} {Q : Workbench → α → Prop} {R : Workbench → β → Prop}

theorem achieves_pure {a : α} (h : ∀ w, P w → Q w a) : Achieves P (pure a) Q := by
  intro w hw a' w' hrun
  cases hrun
  exact ⟨.refl w, hw, h w hw⟩

/-- What is given is no effect. -/
theorem achieves_given {x : Except Failure α} (h : ∀ a, x = .ok a → ∀ w, P w → Q w a) :
    Achieves P (given x) Q := by
  intro w hw a w' hrun
  cases hrun
  exact ⟨.refl w, hw, h a rfl w hw⟩

/-- A failure achieves everything. -/
theorem achieves_fail {e : Failure} : Achieves P (given (.error e)) Q :=
  achieves_given fun _ h => nomatch h

/-- Steps one after another: the fact about the first result lasts during the second step. -/
theorem Achieves.bind {m : Compiling α} {f : α → Compiling β} (hm : Achieves P m Q)
    (hQ : Lasting Q) (hf : ∀ a, Achieves P (f a) fun w b => Q w a → R w b) :
    Achieves P (m >>= f) R := by
  intro w hw b w'' hrun
  rw [bind_apply] at hrun
  rcases hm' : m w with ⟨e | a, w'⟩
  · rw [hm'] at hrun
    cases hrun
  · rw [hm'] at hrun
    obtain ⟨hgrows, hw', ha⟩ := hm w hw a w' hm'
    obtain ⟨hgrows', hw'', hb⟩ := hf a w' hw' b w'' hrun
    exact ⟨hgrows.trans hgrows', hw'', hb (hQ w' w'' a hgrows' ha)⟩

/-- A weaker fact is achieved, too. -/
theorem Achieves.imp {m : Compiling α} {Q' : Workbench → α → Prop} (hm : Achieves P m Q)
    (h : ∀ w a, P w → Q w a → Q' w a) : Achieves P m Q' := by
  intro w hw a w' hrun
  obtain ⟨hgrows, hw', ha⟩ := hm w hw a w' hrun
  exact ⟨hgrows, hw', h w' a hw' ha⟩

/-- Steps of which only the property is of interest. -/
theorem Achieves.andThen {m : Compiling α} {f : α → Compiling β}
    (hm : Achieves P m fun _ _ => True) (hf : ∀ a, Achieves P (f a) fun _ _ => True) :
    Achieves P (m >>= f) fun _ _ => True :=
  hm.bind (fun _ _ _ _ _ => trivial) fun a => (hf a).imp fun _ _ _ _ _ => trivial

/-- A name for the place of errors changes no run that succeeds. -/
theorem Achieves.placed {m : Compiling α} (hm : Achieves P m Q) (name : String) :
    Achieves P (placed name m) Q := by
  intro w hw a w' hrun
  refine hm w hw a w' ?_
  unfold Compiling.placed at hrun
  split at hrun
  · cases hrun
  · exact hrun

/-- A loop achieves for each item what its round does. -/
theorem achieves_mapM {f : α → Compiling β} {S : α → Workbench → β → Prop}
    (hS : ∀ x, Lasting (S x)) {xs : List α} (h : ∀ x ∈ xs, Achieves P (f x) (S x)) :
    Achieves P (xs.mapM f) fun w ys => List.Forall₂ (fun x y => S x w y) xs ys := by
  induction xs with
  | nil => exact achieves_pure fun _ _ => .nil
  | cons x xs ih =>
    rw [List.forall_mem_cons] at h
    rw [List.mapM_cons]
    refine h.1.bind (hS x) fun y => ?_
    refine (ih h.2).bind ?_ fun ys => achieves_pure fun w _ hys hy => .cons hy hys
    intro w w' ys hgrows hys
    exact hys.imp fun x y hxy => hS x w w' y hgrows hxy

/-- A loop without results achieves for each item what its round does. -/
theorem achieves_forM {f : α → Compiling Unit} {S : α → Workbench → Prop}
    (hS : ∀ x w w', w.Grows w' → S x w → S x w') {xs : List α}
    (h : ∀ x ∈ xs, Achieves P (f x) fun w _ => S x w) :
    Achieves P (xs.forM f) fun w _ => ∀ x ∈ xs, S x w := by
  induction xs with
  | nil => exact achieves_pure fun _ _ => nofun
  | cons x xs ih =>
    rw [List.forall_mem_cons] at h
    refine h.1.bind (f := fun _ => xs.forM f) (fun w w' _ hgrows => hS x w w' hgrows) fun _ => ?_
    exact (ih h.2).imp fun w _ _ hxs hx => List.forall_mem_cons.2 ⟨hx, hxs⟩

/-- Growing by insertions is achieved. -/
theorem achieves_grow {g : Growth α} (hP : Stable P) (hg : Growth.OnlyInserts g) :
    Achieves P (grow g) fun w a => ∃ ts, g ts = (.ok a, w.types) := by
  intro w hw a w' hrun
  have hins := hg w.types
  unfold grow at hrun
  rcases hrun' : g w.types with ⟨x, ts'⟩
  rw [hrun'] at hrun hins
  cases hrun
  exact ⟨⟨hins, List.prefix_refl _⟩, hP w ts' hw hins, w.types, hrun'⟩

/-- A draft that is inserted stands. -/
theorem achieves_insert (hP : Stable P) (d : Draft) :
    Achieves P (insert d) fun w sid => w.types.Stands d sid := by
  refine (achieves_grow hP (Growth.onlyInserts_insert d)).imp fun w sid _ h => ?_
  obtain ⟨ts, hts⟩ := h
  exact stands_of_insert (Growth.insert_eq_ok.1 hts)

end Compiling

end StrictContract
