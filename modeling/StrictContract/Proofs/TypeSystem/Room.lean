import Mathlib.Data.List.Forall2
import StrictContract.Proofs.TypeSystem.Derivation
import StrictContract.Proofs.TypeDef

/-! # Room — growth that only a full type system stops

A definition that is valid and refers to ids that are there is inserted under its own id, unless the
type system is full. A computation **gives** a result when it does so from every system that holds the
ids which it needs, as far as there is room; it says which ids are held after it, so that the next
step finds them. -/

namespace StrictContract.TypeSystem.Growth

variable {α β : Type} {needed needed' held mid : List SemId} {a : α} {b : β} {ts : TypeSystem}

/-- A computation that a full type system **stops**. -/
def Stops (g : Growth α) (ts : TypeSystem) : Prop :=
  (g ts).1 = fail (.typeSystemFull capacity) ∧ capacity ≤ (g ts).2.size

/-- A computation **gives** a result in every system that holds the ids `needed`, unless it is
stopped; then the ids `held` are there. -/
def Gives (needed : List SemId) (g : Growth α) (a : α) (held : List SemId) : Prop :=
  ∀ ts, (∀ sid ∈ needed, ts.contains sid = true) → g.Stops ts ∨
    ∃ ts', g ts = (.ok a, ts') ∧ ts.Extends ts' ∧ ∀ sid ∈ held, ts'.contains sid = true

theorem gives_pure (h : ∀ sid ∈ held, sid ∈ needed) : Gives needed (pure a) a held :=
  fun ts hts => .inr ⟨ts, rfl, .refl ts, fun sid hsid => hts sid (h sid hsid)⟩

/-- More ids may be there than are needed. -/
theorem Gives.imp {g : Growth α} (hg : Gives needed g a held) (h : ∀ sid ∈ needed, sid ∈ needed') :
    Gives needed' g a held :=
  fun ts hts => hg ts fun sid hsid => hts sid (h sid hsid)

/-- What needs nothing gives its result wherever something is there. -/
theorem Gives.weaken {g : Growth α} (hg : Gives [] g a held) : Gives needed g a held :=
  hg.imp fun _ h => absurd h List.not_mem_nil

/-- What needs nothing gives its result in every system with room for it. -/
theorem Gives.anywhere {g : Growth α} (hg : Gives [] g a held) (ts : TypeSystem) :
    g.Stops ts ∨ ∃ ts', g ts = (.ok a, ts') :=
  (hg ts fun _ h => absurd h List.not_mem_nil).imp_right fun ⟨ts', hrun, _⟩ => ⟨ts', hrun⟩

/-- Steps one after another: what is there stays there. -/
theorem Gives.bind {g : Growth α} {f : α → Growth β} (hg : Gives needed g a mid)
    (hf : Gives (mid ++ needed) (f a) b held) : Gives needed (g >>= f) b held := by
  intro ts hts
  rcases hg ts hts with ⟨hstop, hfull⟩ | ⟨ts₁, hrun, hextends, hmid⟩
  · refine .inl ?_
    rcases hresult : g ts with ⟨x, ts₁⟩
    rw [hresult] at hstop hfull
    obtain rfl : x = fail (.typeSystemFull capacity) := hstop
    unfold Stops
    rw [bind_apply, hresult]
    exact ⟨rfl, hfull⟩
  · have hneeded : ∀ sid ∈ mid ++ needed, ts₁.contains sid = true := by
      refine List.forall_mem_append.2 ⟨hmid, fun sid hsid => hextends.contains (hts sid hsid)⟩
    have hbind : (g >>= f) ts = f a ts₁ := by rw [bind_apply, hrun]
    rcases hf ts₁ hneeded with hstops | ⟨ts₂, hrun', hextends', hheld⟩
    · refine .inl ?_
      unfold Stops
      rwa [hbind]
    · exact .inr ⟨ts₂, hbind.trans hrun', hextends.trans hextends', hheld⟩

/-- A loop gives what its rounds give, if each needs nothing. -/
theorem gives_mapM (f : α → Growth β) (sid : β → SemId) {xs : List α} {ys : List β}
    (h : List.Forall₂ (fun x y => Gives [] (f x) y [sid y]) xs ys) :
    Gives [] (xs.mapM f) ys (ys.map sid) := by
  induction h with
  | nil => exact gives_pure fun _ h => h
  | cons hx _ ih =>
    rw [List.mapM_cons]
    exact hx.bind (ih.weaken.bind (gives_pure (by simp [or_comm])))

/-- A valid definition is inserted under its id, behind those that it refers to. -/
theorem gives_insert {d : TypeDef} {sid : SemId} (hvalid : d.toDraft.validate = .ok ())
    (hsid : d.toDraft.semId = .ok sid) (hrefs : ∀ ref ∈ d.references, ref ∈ needed) :
    Gives needed (insert d.toDraft) sid [sid] := by
  intro ts hts
  have hmissing : ts.missing? d.toDraft = none := by
    refine missing?_eq_none.2 fun ref href => hts ref (hrefs ref ?_)
    rwa [TypeDef.references_toDraft] at href
  obtain ⟨known, hknown⟩ := Draft.exists_definition?_toDraft d
  have hinsert : ts.insert d.toDraft =
      if ts.contains sid then .ok (sid, ts) else do return (sid, ← ts.add sid known) := by
    simp only [TypeSystem.insert, hvalid, hmissing, hsid, hknown]
    rfl
  by_cases hin : ts.contains sid = true
  · rw [if_pos hin] at hinsert
    exact .inr ⟨ts, by rw [insert, hinsert], .refl ts, List.forall_mem_singleton.2 hin⟩
  · rw [if_neg hin] at hinsert
    by_cases hroom : ts.size < capacity
    · rw [add_eq_ok.2 ⟨hroom, rfl⟩] at hinsert
      refine .inr ⟨_, by rw [insert, hinsert]; rfl, extends_of_insert hinsert, ?_⟩
      exact List.forall_mem_singleton.2 (contains_of_insert hinsert)
    · rw [add, if_neg hroom] at hinsert
      refine .inl ⟨?_, ?_⟩
      · rw [insert, hinsert]
        rfl
      · rw [insert, hinsert]
        exact Nat.le_of_not_lt hroom

/-- A valid definition that refers to nothing is inserted under its id. -/
theorem gives_insert_leaf {d : TypeDef} {sid : SemId} (hvalid : d.toDraft.validate = .ok ())
    (hsid : d.toDraft.semId = .ok sid) (hrefs : d.references = []) :
    Gives needed (insert d.toDraft) sid [sid] :=
  gives_insert hvalid hsid fun _ href => absurd (hrefs ▸ href) List.not_mem_nil

end StrictContract.TypeSystem.Growth

namespace StrictContract.Codec

open TypeSystem.Growth (Gives gives_mapM)

/-! ## Parts of a codec -/

theorem deriveItems_eq_mapM (items : List Codec) : deriveItems items = items.mapM derive := by
  induction items with
  | nil => rfl
  | cons c rest ih => rw [deriveItems, ih, List.mapM_cons]

theorem deriveFields_eq_mapM (fields : List (String × Codec)) :
    deriveFields fields = fields.mapM fun f => do return (.text f.1, ← f.2.derive) := by
  induction fields with
  | nil => rfl
  | cons f rest ih => simp [deriveFields, ih]

theorem deriveVariants_eq_mapM (variants : List (Nat × String × Codec)) :
    deriveVariants variants =
      variants.mapM fun x => do return (.ofNat x.1, .text x.2.1, ← x.2.2.derive) := by
  induction variants with
  | nil => rfl
  | cons x rest ih => simp [deriveVariants, ih]

/-- Items that give their ids. -/
theorem gives_deriveItems {items : List Codec} {sids : List SemId}
    (h : List.Forall₂ (fun c sid => Gives [] c.derive sid [sid]) items sids) :
    Gives [] (deriveItems items) sids sids := by
  rw [deriveItems_eq_mapM]
  simpa using gives_mapM derive (fun sid => sid) h

/-- Fields that give the ids of their types. -/
theorem gives_deriveFields {fields : List (String × Codec)} {known : List (String × SemId)}
    (h : List.Forall₂ (fun f k => k.1 = f.1 ∧ Gives [] f.2.derive k.2 [k.2]) fields known) :
    Gives [] (deriveFields fields) (known.map fun k => (.text k.1, k.2)) (known.map Prod.snd) := by
  rw [deriveFields_eq_mapM]
  have hround : ∀ (f : String × Codec) (k : String × SemId), k.1 = f.1 ∧
      Gives [] f.2.derive k.2 [k.2] →
        Gives [] (do return (Value.text f.1, ← f.2.derive)) (.text k.1, k.2) [k.2] := by
    intro f k hfk
    rw [hfk.1]
    exact hfk.2.bind (TypeSystem.Growth.gives_pure (by simp))
  have hrounds := gives_mapM (fun f : String × Codec => do return (Value.text f.1, ← f.2.derive))
    Prod.snd (List.forall₂_map_right_iff.2 (h.imp hround))
  rwa [List.map_map] at hrounds

/-- Variants that give the ids of their types. -/
theorem gives_deriveVariants {variants : List (Nat × String × Codec)}
    {rows : List (Nat × String × SemId)}
    (h : List.Forall₂ (fun x r => r.1 = x.1 ∧ r.2.1 = x.2.1 ∧ Gives [] x.2.2.derive r.2.2 [r.2.2])
      variants rows) :
    Gives [] (deriveVariants variants) (rows.map fun r => (.ofNat r.1, .text r.2.1, r.2.2))
      (rows.map fun r => r.2.2) := by
  rw [deriveVariants_eq_mapM]
  have hround : ∀ (x : Nat × String × Codec) (r : Nat × String × SemId), r.1 = x.1 ∧ r.2.1 = x.2.1 ∧
      Gives [] x.2.2.derive r.2.2 [r.2.2] → Gives [] (do
        return (Value.ofNat x.1, Value.text x.2.1, ← x.2.2.derive)) (.ofNat r.1, .text r.2.1, r.2.2)
        [r.2.2] := by
    intro x r hxr
    rw [hxr.1, hxr.2.1]
    exact hxr.2.2.bind (TypeSystem.Growth.gives_pure (by simp))
  have hrounds := gives_mapM (fun x : Nat × String × Codec => do
    return (Value.ofNat x.1, Value.text x.2.1, ← x.2.2.derive)) (fun v => v.2.2)
    (List.forall₂_map_right_iff.2 (h.imp hround))
  rwa [List.map_map] at hrounds

end StrictContract.Codec
