import StrictContract.Proofs.TypeSystem.Binding
import StrictContract.Proofs.TypeSystem.Closure
import StrictContract.Proofs.TypeSystem.Room

/-! # Determinacy — what a derivation gives and adds depends on the codec alone

Deriving a codec in different type systems finds different definitions present. All the same the
outcome depends on the codec alone, as long as no system is full, and each system grows by just what the
codec's id reaches.

* `Reliable` says of a computation that it gives one result or fails with one error wherever the ids it
  needs are held, and that it changes nothing and gives the same once its additions are there. Sequences
  and loops of such computations are of this kind, so every derivation is.
* `Adds` bounds the ids that a computation adds. A derivation adds ids of parts of the codec's core form
  only.
* The definition of a codec refers to the ids of its children. So unless a part collides with what the
  system holds under its id, the id of every part is reached from the id of the whole. -/

namespace StrictContract.TypeSystem

variable {ts ts' u : TypeSystem} {roots : List SemId} {sid : SemId}

namespace Growth

variable {α β : Type} {needed needed' : List SemId} {d : Draft}

/-! ## Reliable computations -/

/-- A computation **refuses** with an error in every system that holds the ids `needed`, unless it is
stopped before. -/
def Refuses (needed : List SemId) (g : Growth α) (e : Failure) : Prop :=
  ∀ ts, (∀ sid ∈ needed, ts.contains sid = true) → g.Stops ts ∨ (g ts).1 = .error e

/-- A **reliable** computation. The ids `held a` are there after the result `a`. -/
structure Reliable (needed : List SemId) (g : Growth α) (held : α → List SemId) : Prop where
  /-- It only inserts. -/
  onlyInserts : OnlyInserts g
  /-- It has one outcome wherever the ids are that it needs. -/
  determined : (∃ a, Gives needed g a (held a)) ∨ ∃ e, Refuses needed g e
  /-- Where its additions are, it gives its result again and adds nothing. -/
  repeats : ∀ {ts ts' : TypeSystem} {a : α}, g ts = (.ok a, ts') → ∀ u, ts'.Extends u → g u = (.ok a, u)

/-- A computation that is stopped stops what comes after it. -/
theorem Stops.bind {g : Growth α} (h : g.Stops ts) (f : α → Growth β) : Stops (g >>= f) ts := by
  obtain ⟨hfail, hfull⟩ := h
  rcases hrun : g ts with ⟨x, ts'⟩
  rw [hrun] at hfail hfull
  obtain rfl : x = fail (.typeSystemFull capacity) := hfail
  rw [Stops, bind_apply, hrun]
  exact ⟨rfl, hfull⟩

/-- A refusal is one of the whole. -/
theorem Refuses.bind {g : Growth α} {e : Failure} (h : Refuses needed g e) (f : α → Growth β) :
    Refuses needed (g >>= f) e := by
  intro ts hts
  refine (h ts hts).imp (·.bind f) fun hfail => ?_
  rcases hrun : g ts with ⟨x, ts'⟩
  rw [hrun] at hfail
  obtain rfl : x = .error e := hfail
  rw [bind_apply, hrun]

/-- A refusal after a result is one of the whole. -/
theorem Gives.refuses {g : Growth α} {a : α} {held : List SemId} (h : Gives needed g a held)
    {f : α → Growth β} {e : Failure} (hf : Refuses (held ++ needed) (f a) e) :
    Refuses needed (g >>= f) e := by
  intro ts hts
  rcases h ts hts with hstops | ⟨ts', hrun, hextends, hheld⟩
  · exact .inl (hstops.bind f)
  · have hneeded : ∀ sid ∈ held ++ needed, ts'.contains sid = true :=
      List.forall_mem_append.2 ⟨hheld, fun sid hsid => hextends.contains (hts sid hsid)⟩
    have hbind : (g >>= f) ts = f a ts' := by rw [bind_apply, hrun]
    rw [Stops, hbind]
    exact hf ts' hneeded

namespace Reliable

/-- A result that is given at once is reliable. -/
theorem pure {a : α} {held : α → List SemId} (h : ∀ sid ∈ held a, sid ∈ needed) :
    Reliable needed (pure a) held where
  onlyInserts := onlyInserts_pure a
  determined := .inl ⟨a, gives_pure h⟩
  repeats hrun u _ := by
    cases hrun
    rfl

/-- More ids may be there than are needed. -/
theorem imp {g : Growth α} {held : α → List SemId} (hg : Reliable needed g held)
    (h : ∀ sid ∈ needed, sid ∈ needed') : Reliable needed' g held where
  onlyInserts := hg.onlyInserts
  determined := hg.determined.imp (fun ⟨a, ha⟩ => ⟨a, ha.imp h⟩) fun ⟨e, he⟩ =>
    ⟨e, fun ts hts => he ts fun sid hsid => hts sid (h sid hsid)⟩
  repeats := hg.repeats

/-- What needs nothing is reliable wherever something is there. -/
theorem weaken {g : Growth α} {held : α → List SemId} (hg : Reliable [] g held) :
    Reliable needed g held := hg.imp fun _ h => absurd h List.not_mem_nil

/-- Reliable steps one after another. -/
theorem bind {g : Growth α} {mid : α → List SemId} (hg : Reliable needed g mid) {f : α → Growth β}
    {held : β → List SemId} (hf : ∀ a, Reliable (mid a ++ needed) (f a) held) :
    Reliable needed (g >>= f) held where
  onlyInserts := hg.onlyInserts.bind fun a => (hf a).onlyInserts
  determined := by
    rcases hg.determined with ⟨a, ha⟩ | ⟨e, he⟩
    · rcases (hf a).determined with ⟨b, hb⟩ | ⟨e, he⟩
      · exact .inl ⟨b, ha.bind hb⟩
      · exact .inr ⟨e, ha.refuses he⟩
    · exact .inr ⟨e, he.bind f⟩
  repeats hrun u hu := by
    obtain ⟨a, ts₁, hfirst, hsecond⟩ := Growth.bind_eq_ok.1 hrun
    -- the additions of the first step are still there after the second one
    have hextends := ((hf a).onlyInserts ts₁).isExtension
    rw [hsecond] at hextends
    exact Growth.bind_eq_ok.2
      ⟨a, u, hg.repeats hfirst u (hextends.trans hu), (hf a).repeats hsecond u hu⟩

/-- A loop of reliable rounds. -/
theorem mapM (id : β → SemId) {f : α → Growth β} {xs : List α}
    (h : ∀ x ∈ xs, Reliable [] (f x) fun y => [id y]) : Reliable [] (xs.mapM f) fun ys => ys.map id := by
  induction xs with
  | nil => exact .pure fun _ h => h
  | cons x xs ih =>
    rw [List.forall_mem_cons] at h
    rw [List.mapM_cons]
    exact h.1.bind fun y => (ih h.2).weaken.bind fun ys => .pure (by simp [or_comm])

/-- Inserting a draft is reliable wherever its references are. -/
theorem insert (d : Draft) : Reliable d.references (insert d) fun sid => [sid] where
  onlyInserts := onlyInserts_insert d
  determined := by
    have hmissing : ∀ {ts : TypeSystem}, (∀ ref ∈ d.references, ts.contains ref = true) →
        ts.missing? d = none := missing?_eq_none.2
    cases hvalid : d.validate with
    | error e =>
      refine .inr ⟨e, fun ts hts => .inr ?_⟩
      rw [Growth.insert, TypeSystem.insert, hvalid]
      rfl
    | ok _ =>
      cases hsid : d.semId with
      | error e =>
        refine .inr ⟨e, fun ts hts => .inr ?_⟩
        rw [Growth.insert, TypeSystem.insert, hvalid, hmissing hts, hsid]
        rfl
      | ok sid =>
        refine .inl ⟨sid, fun ts hts => ?_⟩
        by_cases hroom : ts.contains sid = false → ts.size < capacity
        · obtain ⟨ts', hinsert⟩ := exists_insert hvalid hts hsid hroom
          exact .inr ⟨ts', Growth.insert_eq_ok.2 hinsert, extends_of_insert hinsert,
            List.forall_mem_singleton.2 (contains_of_insert hinsert)⟩
        · obtain ⟨hnew, hfull⟩ := Classical.not_imp.1 hroom
          obtain ⟨p, hp, -⟩ := StrictContract.bind_eq_ok.1 hsid
          obtain ⟨known, hknown, -⟩ := Draft.exists_definition?_of_encode hp
          have hinsert : ts.insert d = fail (.typeSystemFull capacity) := by
            rw [TypeSystem.insert, hvalid, hmissing hts, hsid, hknown]
            show (if ts.contains sid = true then _ else _) = _
            rw [hnew, if_neg Bool.false_ne_true, add, if_neg hfull]
            rfl
          refine .inl ?_
          rw [Stops, Growth.insert, hinsert]
          exact ⟨rfl, Nat.le_of_not_lt hfull⟩
  repeats hrun u hu := by
    have hinsert := Growth.insert_eq_ok.1 hrun
    obtain ⟨hvalid, hrefs, hsid, -⟩ := TypeSystem.insert_eq_ok hinsert
    have hin := hu.contains (contains_of_insert hinsert)
    have hextends := (extends_of_insert hinsert).trans hu
    refine Growth.insert_eq_ok.2 ?_
    rw [TypeSystem.insert, hvalid,
      missing?_eq_none.2 fun ref href => hextends.contains (hrefs ref href), hsid]
    show (if u.contains _ = true then _ else _) = _
    rw [if_pos hin]
    rfl

/-- Inserting a draft behind the ids that it refers to is reliable. -/
theorem insert_of_subset {d : Draft} (h : ∀ ref ∈ d.references, ref ∈ needed) :
    Reliable needed (Growth.insert d) fun sid => [sid] := (insert d).imp h

/-- Inserting a draft that refers to nothing is reliable everywhere. -/
theorem insert_leaf {d : Draft} (h : d.references = []) :
    Reliable needed (Growth.insert d) fun sid => [sid] :=
  .insert_of_subset fun _ href => absurd (h ▸ href) List.not_mem_nil

end Reliable

/-! ## What is added -/

/-- A computation that **adds** only ids with a property. -/
def Adds (P : SemId → Prop) (g : Growth α) : Prop :=
  ∀ ts ts' a, g ts = (.ok a, ts') → ∀ x, ts'.contains x = true → ts.contains x = true ∨ P x

/-- A computation that adds only ids with a property and the id that it gives. -/
def AddsResult (P : SemId → Prop) (g : Growth SemId) : Prop :=
  ∀ ts ts' sid, g ts = (.ok sid, ts') →
    ∀ x, ts'.contains x = true → ts.contains x = true ∨ P x ∨ x = sid

variable {P Q : SemId → Prop}

/-- An insertion adds only the id that it gives. -/
theorem addsResult_insert (d : Draft) : AddsResult P (insert d) := by
  intro ts ts' sid h x hx
  obtain ⟨-, -, -, ⟨-, rfl⟩ | ⟨known, -, -, -, rfl⟩⟩ :=
    TypeSystem.insert_eq_ok (Growth.insert_eq_ok.1 h)
  · exact .inl hx
  · rw [contains_iff, List.map_append, List.mem_append, ← contains_iff] at hx
    exact hx.imp_right fun hx => .inr (List.mem_singleton.1 hx)

/-- A result alone adds nothing. -/
theorem adds_pure (a : α) : Adds P (pure a) := by
  intro ts ts' b h x hx
  cases h
  exact .inl hx

theorem Adds.imp {g : Growth α} (h : Adds P g) (hPQ : ∀ x, P x → Q x) : Adds Q g :=
  fun ts ts' a hrun x hx => (h ts ts' a hrun x hx).imp_right (hPQ x)

/-- Two steps add what either adds. -/
theorem Adds.bind {g : Growth α} (hg : Adds P g) {f : α → Growth β} (hf : ∀ a, Adds P (f a)) :
    Adds P (g >>= f) := by
  intro ts ts' b h x hx
  obtain ⟨a, ts₁, hfirst, hsecond⟩ := Growth.bind_eq_ok.1 h
  exact (hf a _ _ _ hsecond x hx).elim (hg _ _ _ hfirst x) .inr

/-- The second of two steps may add the id that it gives. -/
theorem Adds.bindResult {g : Growth α} (hg : Adds P g) {f : α → Growth SemId}
    (hf : ∀ a, AddsResult P (f a)) : AddsResult P (g >>= f) := by
  intro ts ts' sid h x hx
  obtain ⟨a, ts₁, hfirst, hsecond⟩ := Growth.bind_eq_ok.1 h
  exact (hf a _ _ _ hsecond x hx).elim (fun hx => (hg _ _ _ hfirst x hx).imp_right .inl) .inr

/-- A loop adds what its rounds add. -/
theorem adds_mapM {f : α → Growth β} {xs : List α} (h : ∀ x ∈ xs, Adds P (f x)) :
    Adds P (xs.mapM f) := by
  induction xs with
  | nil => exact adds_pure []
  | cons x xs ih =>
    rw [List.forall_mem_cons] at h
    rw [List.mapM_cons]
    exact h.1.bind fun y => (ih h.2).bind fun ys => adds_pure _

/-- An id that is given with the property is added with it. -/
theorem AddsResult.adds {g : Growth SemId} (hg : AddsResult P g)
    (hresult : ∀ ts ts' sid, g ts = (.ok sid, ts') → P sid) : Adds P g := by
  intro ts ts' sid h x hx
  rcases hg ts ts' sid h x hx with hx | hx | rfl
  · exact .inl hx
  · exact .inr hx
  · exact .inr (hresult ts ts' x h)

end Growth

end StrictContract.TypeSystem

namespace StrictContract.Codec

open TypeSystem TypeSystem.Growth

/-! ## Derivations are reliable -/

/-- Deriving a string is reliable. -/
theorem reliable_defineText (first rest : Charset) (b : Bounds) :
    Reliable [] (defineText first rest b) fun sid => [sid] := by
  refine (Reliable.insert_leaf rfl).bind fun restId => ?_
  split
  · refine (Reliable.insert_leaf rfl).bind fun firstId => ?_
    refine (Reliable.insert_of_subset (by simp [Definition.references])).bind fun tailId => ?_
    exact .insert_of_subset (by simp [Definition.references])
  · exact .insert_of_subset (by simp [Definition.references])

/-- Deriving a codec is reliable. -/
theorem reliable_derive (c : Codec) : Reliable [] c.derive fun sid => [sid] := by
  induction c using childInduction with | h c ih => ?_
  cases c with
  | unit | bool | unicode | uint size | sint size | enumeration decl => exact .insert_leaf rfl
  | byteArray size | id kind | bytes b label =>
    exact (Reliable.insert_leaf rfl).bind fun byteId => .insert_of_subset fun _ h => h
  | ascii first rest b label => exact reliable_defineText first rest b
  | list item b label | set item b form label | array item count =>
    exact (ih item (List.mem_singleton.2 rfl)).bind fun itemId => .insert_of_subset fun _ h => h
  | map key value b form label =>
    refine (ih key (List.mem_cons_self ..)).bind fun keyId => ?_
    refine (ih value (by simp [children])).weaken.bind fun valueId => .insert_of_subset ?_
    simp [Definition.references]
  | option inner =>
    refine (Reliable.insert_leaf rfl).bind fun noneId => ?_
    refine (ih inner (List.mem_singleton.2 rfl)).weaken.bind fun someId => .insert_of_subset ?_
    simp [Definition.references]
  | tuple items =>
    rw [derive, deriveItems_eq_mapM]
    refine (Reliable.mapM (fun sid => sid) ih).bind fun sids => .insert_of_subset ?_
    simp [Definition.references]
  | struct name fields form wrapped =>
    have hfields : ∀ f ∈ fields, Reliable [] f.2.derive fun sid => [sid] :=
      fun f hf => ih f.2 (List.mem_map_of_mem hf)
    cases fields with
    | nil => cases wrapped <;> exact .insert_leaf rfl
    | cons f rest =>
      cases wrapped with
      | true => exact hfields f (List.mem_cons_self ..)
      | false =>
        rw [derive, deriveFields_eq_mapM]
        · refine (Reliable.mapM Prod.snd fun x hx => ?_).bind fun fs => .insert_of_subset ?_
          · exact (hfields x hx).bind fun sid => .pure (by simp)
          · simp [Definition.references]
        · exact List.cons_ne_nil f rest
  | union name variants =>
    rw [derive, deriveVariants_eq_mapM]
    refine (Reliable.mapM (fun row => row.2.2) fun x hx => ?_).bind fun rows => .insert_of_subset ?_
    · exact (ih x.2.2 (List.mem_map_of_mem hx)).bind fun sid => .pure (by simp)
    · simp [Definition.references]

/-! ## What a derivation adds -/

/-- An id of a part of a codec in core form. -/
def Named (c : Codec) (x : SemId) : Prop := ∃ s, PartOf s c ∧ s.semId = .ok x

/-- Ids of parts of a child are ids of parts. -/
theorem Named.step {child c : Codec} (hchild : child ∈ c.children) {x : SemId} (h : child.Named x) :
    c.Named x :=
  h.imp fun _ hs => ⟨.step hchild hs.1, hs.2⟩

/-- The id that a derivation gives is that of the core form. -/
theorem adds_of_addsResult {c : Codec} (h : AddsResult c.core.Named c.derive) :
    Adds c.core.Named c.derive :=
  h.adds fun _ _ _ hrun => ⟨c.core, .refl, (c.derives hrun).1⟩

/-- The definition of a child that refers to nothing is added as the child's. -/
theorem adds_insert_child (child : Codec) {c : Codec} {d : TypeDef} (hchild : child ∈ c.children)
    (hd : child.definition = .ok d) : Adds c.Named (insert d.toDraft) := by
  refine (addsResult_insert d.toDraft).adds fun _ _ _ hrun => ?_
  obtain ⟨-, -, hsid, -⟩ := TypeSystem.insert_eq_ok (Growth.insert_eq_ok.1 hrun)
  exact ⟨child, .step hchild .refl, bind_eq_ok.2 ⟨d, hd, hsid⟩⟩

/-- The definition of the characters of a charset. -/
theorem definition_character (cs : Charset) : (character cs).definition = .ok cs.definition := by
  rw [character, definition, Enumeration.members_ofCharset]
  rfl

/-- Deriving a string adds ids of the characters, of their list and of the whole. -/
theorem addsResult_defineText (first rest : Charset) (b : Bounds) (label : Option String) :
    AddsResult (ascii first rest b label).core.Named (defineText first rest b) := by
  rw [core]
  dsimp only [defineText]
  split
  · intro ts ts' sid h x hx
    obtain ⟨restId, ts₁, hrest, h⟩ := Growth.bind_eq_ok.1 h
    obtain ⟨firstId, ts₂, hfirst, h⟩ := Growth.bind_eq_ok.1 h
    obtain ⟨tailId, ts₃, htail, h⟩ := Growth.bind_eq_ok.1 h
    have hrestId := names_of_charset hrest
    have hfirstId := names_of_charset hfirst
    have htailId : ts₃.Names (list (character rest) b label) tailId :=
      names_of_child (f := fun item => .list item b.min b.max) rfl (by simp [semId, definition])
        (hrestId.mono (extends_of_insert (Growth.insert_eq_ok.1 hfirst))) htail
    -- the ids in the order in which they were added, the last one first
    rcases addsResult_insert _ _ _ _ h x hx with hx | hx
    · rcases addsResult_insert _ _ _ _ htail x hx with hx | hx | rfl
      · rcases addsResult_insert _ _ _ _ hfirst x hx with hx | hx | rfl
        · rcases addsResult_insert _ _ _ _ hrest x hx with hx | hx | rfl
          · exact .inl hx
          · exact .inr (.inl hx)
          · have hitem : PartOf (character rest) (list (character rest) b label) :=
              .step (List.mem_singleton.2 rfl) .refl
            exact .inr (.inl ⟨_, .step (by simp [children]) hitem, hrestId.1⟩)
        · exact .inr (.inl hx)
        · exact .inr (.inl ⟨_, .step (by simp [children]) .refl, hfirstId.1⟩)
      · exact .inr (.inl hx)
      · exact .inr (.inl ⟨_, .step (by simp [children]) .refl, htailId.1⟩)
    · exact .inr hx
  · exact (adds_insert_child (character rest) (List.mem_singleton.2 rfl)
      (definition_character rest)).bindResult fun _ => addsResult_insert _

/-- A derivation adds ids of parts of the core form only. -/
theorem adds_derive (c : Codec) : Adds c.core.Named c.derive := by
  induction c using childInduction with | h c ih => ?_
  cases c with
  | unit | bool | unicode | uint size | sint size | enumeration decl =>
    exact adds_of_addsResult (addsResult_insert _)
  | byteArray size | id kind | bytes b label =>
    refine adds_of_addsResult (Adds.bindResult ?_ fun _ => addsResult_insert _)
    exact adds_insert_child (uint 1) (d := .primitive 1) (List.mem_singleton.2 rfl) rfl
  | ascii first rest b label => exact adds_of_addsResult (addsResult_defineText first rest b label)
  | list item b label | set item b form label | array item count =>
    refine adds_of_addsResult (Adds.bindResult ?_ fun _ => addsResult_insert _)
    exact (ih item (List.mem_singleton.2 rfl)).imp fun x => .step (List.mem_singleton.2 rfl)
  | map key value b form label =>
    refine adds_of_addsResult (Adds.bindResult ?_ fun _ => Adds.bindResult ?_ fun _ =>
      addsResult_insert _)
    · exact (ih key (List.mem_cons_self ..)).imp fun x => .step (List.mem_cons_self ..)
    · exact (ih value (by simp [children])).imp fun x => .step (by simp [core, children])
  | option inner =>
    refine adds_of_addsResult (Adds.bindResult ?_ fun _ => Adds.bindResult ?_ fun _ =>
      addsResult_insert _)
    · exact adds_insert_child unit (d := .unit) (by simp [core, children]) rfl
    · exact (ih inner (List.mem_singleton.2 rfl)).imp fun x => .step (by simp [core, children])
  | tuple items =>
    refine adds_of_addsResult ?_
    rw [derive, deriveItems_eq_mapM, core, coreItems_eq_map]
    refine (adds_mapM fun item hitem => ?_).bindResult fun _ => addsResult_insert _
    exact (ih item hitem).imp fun x => .step (List.mem_map_of_mem hitem)
  | struct name fields form wrapped =>
    have hfields : ∀ f ∈ fields, Adds f.2.core.Named f.2.derive :=
      fun f hf => ih f.2 (List.mem_map_of_mem hf)
    cases fields with
    | nil => cases wrapped <;> exact adds_of_addsResult (addsResult_insert _)
    | cons f rest =>
      cases wrapped with
      | true =>
        rw [core, derive]
        exact hfields f (List.mem_cons_self ..)
      | false =>
        refine adds_of_addsResult ?_
        rw [core_struct, coreFields_eq_map, derive, deriveFields_eq_mapM]
        · refine (adds_mapM fun x hx => ?_).bindResult fun _ => addsResult_insert _
          refine ((hfields x hx).imp fun y => .step ?_).bind fun _ => adds_pure _
          simp only [children, List.map_map, List.mem_map]
          exact ⟨x, hx, rfl⟩
        · exact List.cons_ne_nil f rest
  | union name variants =>
    refine adds_of_addsResult ?_
    rw [derive, deriveVariants_eq_mapM, core, coreVariants_eq_map]
    refine (adds_mapM fun v hv => ?_).bindResult fun _ => addsResult_insert _
    refine ((ih v.2.2 (List.mem_map_of_mem hv)).imp fun x => .step ?_).bind fun _ => adds_pure _
    simp only [children, List.map_map, List.mem_map]
    exact ⟨v, hv, rfl⟩

/-! ## What the definition of a codec refers to -/

/-- The definition of a codec refers to the ids of its children. -/
theorem exists_reference {c child : Codec} {d : TypeDef} (hd : c.definition = .ok d)
    (hchild : child ∈ c.children) : ∃ ref ∈ d.references, child.semId = .ok ref := by
  cases c with
  | unit | unicode | uint size | enumeration decl => cases hchild
  | bool | sint size | byteArray size | id kind | bytes b label | ascii first rest b label =>
    cases hchild
  | option inner => cases hd
  | list item b label | set item b form label | array item count =>
    obtain rfl := List.mem_singleton.1 hchild
    simp only [definition, bind_eq_ok] at hd
    obtain ⟨e, he, ref, href, hd⟩ := hd
    cases hd
    exact ⟨ref, List.mem_singleton.2 rfl, bind_eq_ok.2 ⟨e, he, href⟩⟩
  | map key value b form label =>
    simp only [definition, bind_eq_ok] at hd
    obtain ⟨k, hk, keyId, hkeyId, v, hv, valueId, hvalueId, hd⟩ := hd
    cases hd
    rcases List.mem_pair.1 hchild with rfl | rfl
    · exact ⟨keyId, List.mem_cons_self .., bind_eq_ok.2 ⟨k, hk, hkeyId⟩⟩
    · exact ⟨valueId, by simp [Definition.references], bind_eq_ok.2 ⟨v, hv, hvalueId⟩⟩
  | tuple items =>
    rw [definition, itemIds_eq_mapM, bind_eq_ok] at hd
    obtain ⟨sids, hsids, hd⟩ := hd
    cases hd
    obtain ⟨ps, rfl, rfl, hps⟩ := mapM_eq_ok.1 hsids
    obtain ⟨q, hq, rfl⟩ := List.mem_map.1 hchild
    exact ⟨q.2, List.mem_map_of_mem hq, hps q hq⟩
  | struct name fields form wrapped =>
    rw [definition, fieldIds_eq_mapM, bind_eq_ok] at hd
    obtain ⟨sids, hsids, hd⟩ := hd
    cases hd
    obtain ⟨ps, rfl, rfl, hps⟩ := mapM_eq_ok.1 hsids
    rw [children, List.map_map] at hchild
    obtain ⟨q, hq, rfl⟩ := List.mem_map.1 hchild
    obtain ⟨ref, href, hrow⟩ := bind_eq_ok.1 (hps q hq)
    refine ⟨ref, ?_, href⟩
    rw [Definition.references, List.map_map]
    exact List.mem_map.2 ⟨q, hq, by rw [Function.comp_apply, ← pure_eq_ok.1 hrow]⟩
  | union name variants =>
    rw [definition, variantIds_eq_mapM, bind_eq_ok] at hd
    obtain ⟨sids, hsids, hd⟩ := hd
    cases hd
    obtain ⟨ps, rfl, rfl, hps⟩ := mapM_eq_ok.1 hsids
    rw [children, List.map_map] at hchild
    obtain ⟨q, hq, rfl⟩ := List.mem_map.1 hchild
    obtain ⟨ref, href, hrow⟩ := bind_eq_ok.1 (hps q hq)
    refine ⟨ref, ?_, href⟩
    rw [Definition.references, List.map_map]
    exact List.mem_map.2 ⟨q, hq, by rw [Function.comp_apply, ← pure_eq_ok.1 hrow]⟩

end StrictContract.Codec

namespace StrictContract.TypeSystem

variable {ts ts' u : TypeSystem} {roots : List SemId} {sid : SemId} {c : Codec}

/-! ## Parts that are retained -/

/-- A type system **collides** with a codec if it holds, under the id of a part of the codec's core form,
a definition that is encoded as other bytes with the same commitment. -/
def CollidesWith (ts : TypeSystem) (c : Codec) : Prop :=
  ∃ s d sid known, Codec.PartOf s c.core ∧ s.definition = .ok d ∧ d.toDraft.semId = .ok sid ∧
    ts.get? sid = some known ∧ Collide .sem known.toDraft.encode d.toDraft.encode

/-- A type system **retains** a codec in core form if it holds the definition of the codec, in whatever
order its variants come, under the id of the codec. -/
def Retains (ts : TypeSystem) (c : Codec) : Prop :=
  ∃ d sid known, c.definition = .ok d ∧ d.toDraft.semId = .ok sid ∧ ts.get? sid = some known ∧
    d.toDraft.definition? = some known

/-- Where the id of a codec is taken, the codec is retained, or what stands there collides. -/
theorem Knows.retains_or_collide {s : Codec} (h : ts.Knows s) (hts : ts.WellFormed) :
    ts.Retains s ∨ ∃ d sid known, s.definition = .ok d ∧ d.toDraft.semId = .ok sid ∧
      ts.get? sid = some known ∧ Collide .sem known.toDraft.encode d.toDraft.encode := by
  obtain ⟨sid, hsid, hin⟩ := h
  obtain ⟨d, hd, hsid⟩ := StrictContract.bind_eq_ok.1 hsid
  obtain ⟨known, hknown⟩ := Option.isSome_iff_exists.1 hin
  have hmem := hts.get?_eq_some.1 hknown
  -- the draft of the definition and the definition that it is have the same bytes
  obtain ⟨p, hp, hid⟩ := StrictContract.bind_eq_ok.1 hsid
  obtain ⟨e, he, hnormal, hencode⟩ := Draft.exists_definition?_of_encode hp
  rcases eq_or_collide_of_semId (hts.normal _ hmem) hnormal (hts.named _ hmem)
    (StrictContract.bind_eq_ok.2 ⟨p, hencode, hid⟩) with rfl | hcollide
  · exact .inl ⟨d, sid, known, hd, hsid, hknown, he⟩
  · exact .inr ⟨d, sid, known, hd, hsid, hknown, by rwa [hp, ← hencode]⟩

/-- From the id of a codec whose parts are retained, the id of every part is reached. -/
theorem reached_of_partOf {s : Codec} (hpart : Codec.PartOf s c) (hretains : c.Throughout ts.Retains)
    (hsid : c.semId = .ok sid) (hreached : ts.Reached roots sid) {x : SemId}
    (hx : s.semId = .ok x) : ts.Reached roots x := by
  induction hpart generalizing sid with
  | refl =>
    obtain rfl := Except.ok.inj (hsid.symm.trans hx)
    exact hreached
  | @step child c hchild _ ih =>
    obtain ⟨d, sid', known, hd, hsid', hget, hknown⟩ := hretains.self
    obtain rfl := Except.ok.inj (hsid.symm.trans (StrictContract.bind_eq_ok.2 ⟨d, hd, hsid'⟩))
    obtain ⟨ref, href, hchildId⟩ := Codec.exists_reference hd hchild
    rw [← TypeDef.references_toDraft] at href
    have hstored := (Draft.references_of_definition? hknown).mem_iff.2 href
    exact ih (hretains.child hchild) hchildId (.step hreached hget hstored)

/-! ## What a derivation does -/

/-- What a derivation that gives an id does to a type system. -/
structure Derived (c : Codec) (sid : SemId) (ts ts' : TypeSystem) : Prop where
  /-- The derivation gives the id. -/
  gives : c.derive ts = (.ok sid, ts')
  /-- A second derivation gives the same id and changes nothing. -/
  again : c.derive ts' = (.ok sid, ts')
  /-- The definitions are the ones before together with what the id reaches, or there is a collision. -/
  contents : (∃ part, ts'.extract [sid] = .ok part ∧
    ∀ x d, ts'.get? x = some d ↔ ts.get? x = some d ∨ part.get? x = some d) ∨ ts'.CollidesWith c

/-- A derivation that gives an id adds just what the id reaches. -/
theorem WellFormed.derived (h : ts.WellFormed) (hderive : c.derive ts = (.ok sid, ts')) :
    Derived c sid ts ts' := by
  have hinserts := c.onlyInserts_derive ts
  rw [hderive] at hinserts
  have hextends := hinserts.isExtension
  have hts' := h.of_derive hderive
  refine ⟨hderive, c.reliable_derive.repeats hderive ts' (.refl ts'), ?_⟩
  by_cases hcollides : ts'.CollidesWith c
  · exact .inr hcollides
  · obtain ⟨hsid, hknown⟩ := c.derives hderive
    have hretains : c.core.Throughout ts'.Retains := by
      intro s hs
      refine ((hknown s hs).retains_or_collide hts').resolve_right ?_
      rintro ⟨d, x, known, hd, hx, hget, hcollide⟩
      exact hcollides ⟨s, d, x, known, hs, hd, hx, hget, hcollide⟩
    have hroots : ∀ root ∈ [sid], ts'.contains root = true :=
      List.forall_mem_singleton.2 (contains_of_derive hderive)
    obtain ⟨part, hpart, -, hget⟩ := hts'.exists_extract hroots
    refine .inl ⟨part, hpart, fun x d => ⟨fun hd => ?_, ?_⟩⟩
    · rcases c.adds_derive _ _ _ hderive x (Option.isSome_iff_exists.2 ⟨d, hd⟩) with hold | hnew
      · obtain ⟨e, he⟩ := Option.isSome_iff_exists.1 hold
        exact .inl (by rwa [Option.some.inj (hd.symm.trans (hextends.get?_eq_some he))])
      · obtain ⟨s, hs, hx⟩ := hnew
        have hroot : ts'.Reached [sid] sid := .root (List.mem_singleton.2 rfl)
        exact .inr ((hget x d).2 ⟨reached_of_partOf hs hretains hsid hroot hx, hd⟩)
    · rintro (hd | hd)
      · exact hextends.get?_eq_some hd
      · exact ((hget x d).1 hd).2

/-- **Deriving depends on the codec alone.** In two well-formed type systems that do not get full, a
derivation fails with the same error or gives the same id. In the second case each system afterwards has
its definitions from before and those that the id reaches, and a second derivation gives the id again and
changes nothing. -/
theorem derive_determined (c : Codec) (hts : ts.WellFormed) (hu : u.WellFormed)
    (hroom : (c.derive ts).2.size < capacity) (hroom' : (c.derive u).2.size < capacity) :
    (∃ e, (c.derive ts).1 = .error e ∧ (c.derive u).1 = .error e) ∨
      ∃ sid ts' u', Derived c sid ts ts' ∧ Derived c sid u u' := by
  have hstops : ∀ {w : TypeSystem}, (c.derive w).2.size < capacity → ¬ Growth.Stops c.derive w :=
    fun hroom h => Nat.not_lt.2 h.2 hroom
  rcases c.reliable_derive.determined with ⟨sid, hgives⟩ | ⟨e, hrefuses⟩
  · obtain ⟨ts', hderive⟩ := (hgives.anywhere ts).resolve_left (hstops hroom)
    obtain ⟨u', hderive'⟩ := (hgives.anywhere u).resolve_left (hstops hroom')
    exact .inr ⟨sid, ts', u', hts.derived hderive, hu.derived hderive'⟩
  · have hany : ∀ w : TypeSystem, ∀ sid ∈ ([] : List SemId), w.contains sid = true := fun _ => nofun
    exact .inl ⟨e, (hrefuses ts (hany ts)).resolve_left (hstops hroom),
      (hrefuses u (hany u)).resolve_left (hstops hroom')⟩

/-- The lists of truth values are derived alike where there are no types and where they are already. -/
theorem derive_determined_list : ∃ sid ts, (Codec.list .bool .tiny none).derive empty = (.ok sid, ts) ∧
    ts.WellFormed ∧ ts.size < capacity ∧ Derived (.list .bool .tiny none) sid empty ts ∧
      Derived (.list .bool .tiny none) sid ts ts := by
  obtain ⟨sid, ts, hderive, hsize⟩ := exists_derive_list derive_bool_empty (by decide) .tiny none
  have hagain := (Codec.list .bool .tiny none).reliable_derive.repeats hderive ts (.refl ts)
  have hroom : ts.size < capacity := Nat.lt_of_le_of_lt hsize (by decide)
  have hts : ts.WellFormed := wellFormed_empty.of_derive hderive
  rcases derive_determined (.list .bool .tiny none) wellFormed_empty hts (by rwa [hderive])
    (by rwa [hagain]) with ⟨e, he, -⟩ | ⟨sid', ts', u', h, h'⟩
  · rw [hderive] at he
    cases he
  · cases hderive.symm.trans h.gives
    cases hagain.symm.trans h'.gives
    exact ⟨sid, ts, hderive, hts, hroom, h, h'⟩

end StrictContract.TypeSystem
