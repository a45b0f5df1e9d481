import StrictContract.Journal
import StrictContract.Proofs.Outcome

/-! # Journals — what a computation gives, whatever was written

Events are only written, never read, so the outcome of a logged computation does not depend on them.
A computation **yields** an outcome if it has this outcome whatever was written before. -/

namespace StrictContract

variable {α β : Type}

/-- A logged computation **yields** an outcome that it has whatever was written before. -/
def Logged.Yields (m : Logged α) (x : Except Failure α) : Prop := ∀ written, (m written).1 = x

namespace Logged.Yields

theorem pure (a : α) : Yields (pure a) (.ok a) := fun _ => rfl

/-- A computation without events yields its outcome. -/
theorem lift (x : Except Failure α) : Yields (liftM x) x := fun _ => rfl

/-- A failure is yielded. -/
theorem throw (e : Failure) : Yields (throw e : Logged α) (.error e) := fun _ => rfl

/-- Writing events yields nothing. -/
theorem log (events : List Event) : Yields (Logged.log events) (.ok ()) := fun _ => rfl

/-- Steps that yield their outcomes make a computation that yields that of the sequence. -/
theorem bind {m : Logged α} {x : Except Failure α} {f : α → Logged β} {g : α → Except Failure β}
    (hm : Yields m x) (hf : ∀ a, Yields (f a) (g a)) : Yields (m >>= f) (x >>= g) := by
  intro written
  have hfirst := hm written
  rw [bind_apply]
  rcases hrun : m written with ⟨_ | a, written'⟩ <;> rw [hrun] at hfirst <;> subst hfirst
  · rfl
  · exact hf a written'

/-- After a step that yields a result, the rest yields the outcome for this result. -/
theorem bind_ok {m : Logged α} {a : α} {f : α → Logged β} {y : Except Failure β}
    (hm : Yields m (.ok a)) (hf : Yields (f a) y) : Yields (m >>= f) y := by
  intro written
  have hfirst := hm written
  rw [bind_apply]
  rcases hrun : m written with ⟨x, written'⟩
  rw [hrun] at hfirst
  subst hfirst
  exact hf written'

/-- A step that has no result but events can be left out. -/
theorem andThen {m : Logged Unit} {n : Logged β} {y : Except Failure β} (hm : Yields m (.ok ()))
    (hn : Yields n y) : Yields (m >>= fun _ => n) y :=
  bind_ok hm hn

/-- A loop yields what the loop over the outcomes of its rounds gives. -/
theorem mapM {f : α → Logged β} {g : α → Except Failure β} (h : ∀ a, Yields (f a) (g a))
    (xs : List α) : Yields (xs.mapM f) (xs.mapM g) := by
  induction xs with
  | nil => exact pure []
  | cons x xs ih =>
    rw [List.mapM_cons, List.mapM_cons]
    exact bind (h x) fun y => bind ih fun ys => pure (y :: ys)

/-- A handler that passes failures on changes no outcome. -/
theorem rethrow {m : Logged α} {x : Except Failure α} {handle : Failure → Logged α}
    (hm : Yields m x) (hhandle : ∀ e, Yields (handle e) (.error e)) :
    Yields (tryCatch m handle) x := by
  intro written
  have hfirst := hm written
  rw [tryCatch_apply]
  rcases hrun : m written with ⟨_ | a, written'⟩ <;> rw [hrun] at hfirst <;> subst hfirst
  · exact hhandle _ written'
  · rfl

/-- Two outcomes of one computation are the same. -/
theorem unique {m : Logged α} {x y : Except Failure α} (hx : Yields m x) (hy : Yields m y) :
    x = y :=
  (hx []).symm.trans (hy [])

end Logged.Yields

end StrictContract
