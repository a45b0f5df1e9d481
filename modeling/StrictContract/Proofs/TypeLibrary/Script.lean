import StrictContract.Proofs.TypeLibrary.Workbench

/-! # Scripts — what compiling a declaration consists of

A computation is **scripted** if all that it does is to compile certain references and to insert
definitions which refer only to ids that it got before. Compiling a declaration is scripted by the
**references** of the declaration, whatever compiles these. Three facts follow for every script: what
compiling a reference achieves is achieved for all of them; the run depends on nothing else than how
they are compiled; and where each of them can be compiled as in another run, so can the whole. -/

namespace StrictContract

open TypeSystem

variable {α β : Type}

namespace Compiling

/-! ## Scripts -/

/-- A computation that is **scripted** by a list of references, given what compiles a reference at its
place. The ids `known` are there when it starts, and `held` says which ones its result brings. -/
inductive Scripted : {α : Type} → List SemId → List Value →
    ((Value → String → Compiling SemId) → Compiling α) → (α → List SemId) → Prop
  | pure {α : Type} {known : List SemId} {held : α → List SemId} (a : α)
      (h : ∀ sid ∈ held a, sid ∈ known) : Scripted known [] (fun _ => pure a) held
  | fail {α : Type} {known : List SemId} {vs : List Value} {held : α → List SemId} (e : Failure) :
      Scripted known vs (fun _ => given (.error e)) held
  | insert {known : List SemId} (d : Draft) (h : ∀ ref ∈ d.references, ref ∈ known) :
      Scripted known [] (fun _ => insert d) fun sid => [sid]
  | reference {known : List SemId} (v : Value) (place : String) :
      Scripted known [v] (fun ref => ref v place) fun sid => [sid]
  | bind {α β : Type} {known : List SemId} {vs us : List Value} {mid : α → List SemId}
      {held : β → List SemId} {m : (Value → String → Compiling SemId) → Compiling α}
      {f : α → (Value → String → Compiling SemId) → Compiling β} (hm : Scripted known vs m mid)
      (hf : ∀ a, Scripted (mid a ++ known) us (f a) held) :
      Scripted known (vs ++ us) (fun ref => m ref >>= fun a => f a ref) held
  | arrange {α : Type} {known : List SemId} {vs us : List Value} {held : α → List SemId}
      {m : (Value → String → Compiling SemId) → Compiling α} (hm : Scripted known vs m held)
      (h : ∀ v, v ∈ us ↔ v ∈ vs) : Scripted known us m held

namespace Scripted

variable {known : List SemId} {vs : List Value} {held : α → List SemId}

/-- What is given is no step. -/
theorem givenBind {x : Except Failure β} {f : β → (Value → String → Compiling SemId) → Compiling α}
    (h : ∀ b, x = .ok b → Scripted known vs (f b) held) :
    Scripted known vs (fun ref => given x >>= fun b => f b ref) held := by
  cases x with
  | error e => exact .fail e
  | ok b => simpa only [Form.given_ok, pure_bind] using h b rfl

/-- A last step after which there are no references. -/
theorem andThen {mid : β → List SemId} {m : (Value → String → Compiling SemId) → Compiling β}
    {f : β → (Value → String → Compiling SemId) → Compiling α} (hm : Scripted known vs m mid)
    (hf : ∀ b, Scripted (mid b ++ known) [] (f b) held) :
    Scripted known vs (fun ref => m ref >>= fun b => f b ref) held := by
  simpa only [List.append_nil] using bind hm hf

/-- A loop is scripted by the references of its rounds. -/
theorem mapM {xs : List β} {refs : β → List Value} {held : α → List SemId}
    {f : β → (Value → String → Compiling SemId) → Compiling α}
    (h : ∀ x ∈ xs, ∀ known, Scripted known (refs x) (f x) held) (known : List SemId) :
    Scripted known (xs.flatMap refs) (fun ref => xs.mapM fun x => f x ref)
      fun ys => ys.flatMap held := by
  induction xs generalizing known with
  | nil => exact .pure [] nofun
  | cons x xs ih =>
    rw [List.forall_mem_cons] at h
    simp only [List.mapM_cons, List.flatMap_cons]
    refine .bind (h.1 known) fun y => .andThen (ih h.2 _) fun ys => .pure (y :: ys) ?_
    simp only [List.flatMap_cons, List.mem_append]
    tauto

/-- What compiling a reference achieves is achieved for all references. -/
theorem achieves {m : (Value → String → Compiling SemId) → Compiling α} (h : Scripted known vs m held)
    {P : Workbench → Prop} {K : Workbench → Value → Prop} {ref : Value → String → Compiling SemId}
    (hP : Stable P) (hK : ∀ w w' v, w.Grows w' → K w v → K w' v)
    (href : ∀ v ∈ vs, ∀ place, Achieves P (ref v place) fun w _ => K w v) :
    Achieves P (m ref) fun w _ => ∀ v ∈ vs, K w v := by
  induction h with
  | pure a _ => exact achieves_pure fun _ _ => nofun
  | fail e => exact achieves_fail
  | insert d _ => exact (achieves_insert hP d).imp fun _ _ _ _ => nofun
  | reference v place =>
    exact (href v (List.mem_singleton.2 rfl) place).imp fun _ _ _ h => List.forall_mem_singleton.2 h
  | bind _ _ ihm ihf =>
    rw [List.forall_mem_append] at href
    refine (ihm href.1).bind (fun w w' _ hgrows h v hv => hK w w' v hgrows (h v hv)) fun a => ?_
    exact (ihf a href.2).imp fun w _ _ hus hvs => List.forall_mem_append.2 ⟨hvs, hus⟩
  | arrange _ hmem ih =>
    exact (ih fun v hv => href v ((hmem v).2 hv)).imp fun w _ _ h v hv => h v ((hmem v).1 hv)

/-- A run depends only on how the references are compiled. -/
theorem congr {m : (Value → String → Compiling SemId) → Compiling α} (h : Scripted known vs m held)
    {ref ref' : Value → String → Compiling SemId} (href : ∀ v ∈ vs, ref v = ref' v) :
    m ref = m ref' := by
  induction h with
  | pure | fail | insert => rfl
  | reference v place => exact congrFun (href v (List.mem_singleton.2 rfl)) place
  | bind _ _ ihm ihf =>
    rw [List.forall_mem_append] at href
    dsimp only
    rw [ihm href.1]
    exact bind_congr fun a => ihf a href.2
  | arrange _ hmem ih => exact ih fun v hv => href v ((hmem v).2 hv)

end Scripted

/-! ## One run after the example of another -/

/-- Runs of `m` are **followed** by runs of `m'`: a run of `m` that succeeds keeps `P`, and if it ends
below the workbench `T`, then `m'` gives the same result wherever `V` holds and the ids `known` are
available. It keeps `V`, too, and the ids `held` are available after it. -/
def Follows (P : Workbench → Prop) (T : Workbench) (V : Workbench → Prop)
    (available : Workbench → SemId → Prop) (known : List SemId) (m m' : Compiling α)
    (held : α → List SemId) : Prop :=
  ∀ w, P w → ∀ a w', m w = (.ok a, w') → w.Grows w' ∧ P w' ∧ (w'.Grows T →
    ∀ x, V x → (∀ sid ∈ known, available x sid) →
      ∃ x', m' x = (.ok a, x') ∧ x.Grows x' ∧ V x' ∧ ∀ sid ∈ held a, available x' sid)

/-- A script is followed step by step. -/
theorem Scripted.follows {known : List SemId} {vs : List Value} {held : α → List SemId}
    {m : (Value → String → Compiling SemId) → Compiling α} (h : Scripted known vs m held)
    {P V : Workbench → Prop} {T : Workbench} {available : Workbench → SemId → Prop}
    {ref ref' : Value → String → Compiling SemId} (hlasting : Lasting available)
    (hinsert : ∀ d : Draft, Follows P T V available d.references (Compiling.insert d)
      (Compiling.insert d) fun sid => [sid])
    (href : ∀ v ∈ vs, ∀ place,
      Follows P T V available [] (ref v place) (ref' v place) fun sid => [sid]) :
    Follows P T V available known (m ref) (m ref') held := by
  induction h with
  | pure a hheld =>
    intro w hw a' w' hrun
    cases hrun
    exact ⟨.refl w, hw, fun _ x hx hknown =>
      ⟨x, rfl, .refl x, hx, fun sid hsid => hknown sid (hheld sid hsid)⟩⟩
  | fail e =>
    intro w hw a w' hrun
    cases hrun
  | insert d hrefs =>
    intro w hw a w' hrun
    obtain ⟨hgrows, hw', hfollow⟩ := hinsert d w hw a w' hrun
    exact ⟨hgrows, hw', fun hT x hx hknown =>
      hfollow hT x hx fun sid hsid => hknown sid (hrefs sid hsid)⟩
  | reference v place =>
    intro w hw a w' hrun
    obtain ⟨hgrows, hw', hfollow⟩ := href v (List.mem_singleton.2 rfl) place w hw a w' hrun
    exact ⟨hgrows, hw', fun hT x hx _ => hfollow hT x hx nofun⟩
  | @bind α β known vs us mid held m f _ _ ihm ihf =>
    rw [List.forall_mem_append] at href
    intro w hw b w'' hrun
    dsimp only at hrun
    rw [bind_apply] at hrun
    rcases hm : m ref w with ⟨e | a, w'⟩
    · rw [hm] at hrun
      cases hrun
    rw [hm] at hrun
    obtain ⟨hgrows, hw', hfirst⟩ := ihm href.1 w hw a w' hm
    obtain ⟨hgrows', hw'', hsecond⟩ := ihf a href.2 w' hw' b w'' hrun
    refine ⟨hgrows.trans hgrows', hw'', fun hT x hx hknown => ?_⟩
    obtain ⟨x', hx', hext, hV, hmid⟩ := hfirst (hgrows'.trans hT) x hx hknown
    obtain ⟨x'', hx'', hext', hV', hheld⟩ := hsecond hT x' hV
      (List.forall_mem_append.2 ⟨hmid, fun sid hsid => hlasting x x' sid hext (hknown sid hsid)⟩)
    refine ⟨x'', ?_, hext.trans hext', hV', hheld⟩
    dsimp only
    rw [bind_apply, hx']
    exact hx''
  | arrange _ hmem ih => exact ih fun v hv => href v ((hmem v).2 hv)

end Compiling
end StrictContract
