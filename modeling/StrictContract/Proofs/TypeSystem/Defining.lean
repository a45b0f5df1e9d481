import StrictContract.Proofs.Codec.Core
import StrictContract.Proofs.TypeSystem.Derivation

/-! # Defining — the definition that a codec has in every type system

The definition of a codec, and its id, depend on the codec alone: they are those of its core form.
Deriving a codec gives this id and leaves definitions under the ids of all its parts; these are the
right ones unless the type system holds something else under an id, in which case there are two
definitions of which the encodings have one commitment. -/

namespace StrictContract

namespace Codec

mutual

/-- The definition of a codec in core form. -/
def definition : Codec → Except Failure TypeDef
  | unit => return .unit
  | unicode => return .unicode
  | uint size => return .primitive size
  | enumeration decl => return .enumeration decl.members
  | list item b _ => do return .list (← (← definition item).toDraft.semId) b.min b.max
  | set item b _ _ => do return .set (← (← definition item).toDraft.semId) b.min b.max
  | map key value b _ _ => do
    let keyId ← (← definition key).toDraft.semId
    let valueId ← (← definition value).toDraft.semId
    return .map keyId valueId b.min b.max
  | array item count => do return .array (← (← definition item).toDraft.semId) count
  | tuple items => do return .tuple (← itemIds items)
  | struct _ fields _ _ => do return .struct (← fieldIds fields)
  | union _ variants => do return .union (← variantIds variants)
  | _ => misuse .wrongType

/-- The ids of several codecs. -/
def itemIds : List Codec → Except Failure (List SemId)
  | [] => return []
  | c :: rest => do
    let sid ← (← definition c).toDraft.semId
    return sid :: (← itemIds rest)

/-- The ids of the codecs of fields. -/
def fieldIds : List (String × Codec) → Except Failure (List (String × SemId))
  | [] => return []
  | (name, c) :: rest => do
    let sid ← (← definition c).toDraft.semId
    return (name, sid) :: (← fieldIds rest)

/-- The ids of the codecs of variants. -/
def variantIds : List (Nat × String × Codec) → Except Failure (List (Nat × String × SemId))
  | [] => return []
  | (tag, name, c) :: rest => do
    let sid ← (← definition c).toDraft.semId
    return (tag, name, sid) :: (← variantIds rest)

end

/-- The id of a codec in core form. -/
def semId (c : Codec) : Except Failure SemId := do (← c.definition).toDraft.semId

attribute [local simp] definition itemIds fieldIds variantIds
attribute [local simp] core coreItems coreFields coreVariants
attribute [local simp] derive deriveItems deriveFields deriveVariants

theorem itemIds_eq_mapM (items : List Codec) : itemIds items = items.mapM semId := by
  induction items with
  | nil => rfl
  | cons c rest ih => simp [ih, semId]

theorem fieldIds_eq_mapM (fields : List (String × Codec)) :
    fieldIds fields = fields.mapM fun f => do return (f.1, ← f.2.semId) := by
  induction fields with
  | nil => rfl
  | cons f rest ih => simp [ih, semId]

theorem variantIds_eq_mapM (variants : List (Nat × String × Codec)) :
    variantIds variants = variants.mapM fun x => do return (x.1, x.2.1, ← x.2.2.semId) := by
  induction variants with
  | nil => rfl
  | cons x rest ih => simp [ih, semId]

end Codec

/-! ## Deriving -/

namespace TypeSystem

variable {ts ts' : TypeSystem} {sid : SemId}

/-- Two steps succeed when both do, each in the system that the one before left. -/
theorem Growth.bind_eq_ok {α β : Type} {m : Growth α} {f : α → Growth β} {b : β} :
    (m >>= f) ts = (.ok b, ts') ↔ ∃ a ts₁, m ts = (.ok a, ts₁) ∧ f a ts₁ = (.ok b, ts') :=
  bind_apply_eq_ok

/-- An insertion that succeeds. -/
theorem Growth.insert_eq_ok {d : Draft} :
    Growth.insert d ts = (.ok sid, ts') ↔ ts.insert d = .ok (sid, ts') := by
  unfold Growth.insert
  rcases ts.insert d with e | ⟨sid', ts₁⟩
  · constructor
    · intro h; cases h
    · intro h; cases h
  · constructor
    · intro h; cases h; rfl
    · intro h; cases h; rfl

/-- A codec in core form of which the id is taken. -/
def Knows (ts : TypeSystem) (c : Codec) : Prop := ∃ sid, c.semId = .ok sid ∧ ts.contains sid = true

/-- A codec in core form has an id, and the ids of all its parts are taken. -/
def Names (ts : TypeSystem) (c : Codec) (sid : SemId) : Prop :=
  c.semId = .ok sid ∧ c.Throughout ts.Knows

theorem Knows.mono {c : Codec} (h : ts.Knows c) (hextends : ts.Extends ts') : ts'.Knows c := by
  obtain ⟨sid, hsid, hin⟩ := h
  exact ⟨sid, hsid, hextends.contains hin⟩

theorem Names.mono {c : Codec} (h : ts.Names c sid) (hextends : ts.Extends ts') :
    ts'.Names c sid :=
  ⟨h.1, fun s hs => (h.2 s hs).mono hextends⟩

/-- Inserting the definition of a codec after those of its children gives the codec its id. -/
theorem names_of_insert {c : Codec} {d : TypeDef} (hd : c.definition = .ok d)
    (hchildren : ∀ s ∈ c.children, s.Throughout ts.Knows)
    (h : Growth.insert d.toDraft ts = (.ok sid, ts')) : ts'.Names c sid := by
  rw [Growth.insert_eq_ok] at h
  obtain ⟨-, -, hsid, -⟩ := insert_eq_ok h
  have hid : c.semId = .ok sid := StrictContract.bind_eq_ok.2 ⟨d, hd, hsid⟩
  refine ⟨hid, .mk ⟨sid, hid, contains_of_insert h⟩ fun s hs t ht => ?_⟩
  exact (hchildren s hs t ht).mono (extends_of_insert h)

/-- Defining a codec that is made of nothing else gives it its id. -/
theorem names_of_define {c : Codec} {d : TypeDef} (hd : c.definition = .ok d)
    (hc : c.children = []) (h : Growth.define d ts = (.ok sid, ts')) : ts'.Names c sid :=
  names_of_insert hd (by rw [hc]; nofun) h

end TypeSystem

namespace Codec

open TypeSystem

attribute [local simp] definition itemIds fieldIds variantIds
attribute [local simp] core coreItems coreFields coreVariants
attribute [local simp] derive deriveItems deriveFields deriveVariants

/-- Deriving a codec extends a system. -/
theorem extends_of_derive {c : Codec} {ts ts' : TypeSystem} {sid : SemId}
    (h : c.derive ts = (.ok sid, ts')) : ts.Extends ts' := by
  have hextends := (c.onlyInserts_derive ts).isExtension
  rwa [h] at hextends

/-- Deriving gives a codec the id of its core form. -/
def Derives (c : Codec) : Prop :=
  ∀ {ts ts' : TypeSystem} {sid : SemId}, c.derive ts = (.ok sid, ts') → ts'.Names c.core sid

/-- Deriving several codecs gives all of them their ids. -/
theorem names_of_deriveItems {items : List Codec} (ih : ∀ c ∈ items, Derives c)
    {ts ts' : TypeSystem} {sids : List SemId} (h : deriveItems items ts = (.ok sids, ts')) :
    itemIds (coreItems items) = .ok sids ∧ ∀ c ∈ coreItems items, c.Throughout ts'.Knows := by
  induction items generalizing ts sids with
  | nil =>
    cases h
    exact ⟨rfl, nofun⟩
  | cons c rest ihrest =>
    rw [List.forall_mem_cons] at ih
    rw [deriveItems, Growth.bind_eq_ok] at h
    obtain ⟨sid, ts₁, hc, h⟩ := h
    obtain ⟨sids', ts₂, hrest, h⟩ := Growth.bind_eq_ok.1 h
    cases h
    obtain ⟨hsids, hknown⟩ := ihrest ih.2 hrest
    -- the ids that the first codec leaves are still taken after the others
    have hextends := (onlyInserts_deriveItems rest ts₁).isExtension
    rw [hrest] at hextends
    obtain ⟨hsid, hthroughout⟩ := (ih.1 hc).mono hextends
    refine ⟨?_, List.forall_mem_cons.2 ⟨hthroughout, hknown⟩⟩
    rw [coreItems, itemIds_eq_mapM, List.mapM_cons, hsid, ← itemIds_eq_mapM, hsids]
    rfl

/-- Deriving the codecs of fields gives all of them their ids. -/
theorem names_of_deriveFields {fields : List (String × Codec)} (ih : ∀ f ∈ fields, Derives f.2)
    {ts ts' : TypeSystem} {fs : List (Value × SemId)} (h : deriveFields fields ts = (.ok fs, ts')) :
    (∃ ids, fieldIds (coreFields fields) = .ok ids ∧
      fs = ids.map fun (name, sid) => (.text name, sid)) ∧
      ∀ f ∈ coreFields fields, f.2.Throughout ts'.Knows := by
  induction fields generalizing ts fs with
  | nil =>
    cases h
    exact ⟨⟨[], rfl, rfl⟩, nofun⟩
  | cons f rest ihrest =>
    rw [List.forall_mem_cons] at ih
    rw [deriveFields, Growth.bind_eq_ok] at h
    obtain ⟨sid, ts₁, hc, h⟩ := h
    obtain ⟨fs', ts₂, hrest, h⟩ := Growth.bind_eq_ok.1 h
    cases h
    obtain ⟨⟨ids, hids, rfl⟩, hknown⟩ := ihrest ih.2 hrest
    have hextends := (onlyInserts_deriveFields rest ts₁).isExtension
    rw [hrest] at hextends
    obtain ⟨hsid, hthroughout⟩ := (ih.1 hc).mono hextends
    refine ⟨⟨(f.1, sid) :: ids, ?_, rfl⟩, List.forall_mem_cons.2 ⟨hthroughout, hknown⟩⟩
    rw [coreFields, fieldIds_eq_mapM, List.mapM_cons, hsid, ← fieldIds_eq_mapM, hids]
    rfl

/-- Deriving the codecs of variants gives all of them their ids. -/
theorem names_of_deriveVariants {variants : List (Nat × String × Codec)}
    (ih : ∀ x ∈ variants, Derives x.2.2) {ts ts' : TypeSystem} {vs : List (Value × Value × SemId)}
    (h : deriveVariants variants ts = (.ok vs, ts')) :
    (∃ ids, variantIds (coreVariants variants) = .ok ids ∧
      vs = ids.map fun (tag, name, sid) => (.ofNat tag, .text name, sid)) ∧
      ∀ x ∈ coreVariants variants, x.2.2.Throughout ts'.Knows := by
  induction variants generalizing ts vs with
  | nil =>
    cases h
    exact ⟨⟨[], rfl, rfl⟩, nofun⟩
  | cons x rest ihrest =>
    rw [List.forall_mem_cons] at ih
    rw [deriveVariants, Growth.bind_eq_ok] at h
    obtain ⟨sid, ts₁, hc, h⟩ := h
    obtain ⟨vs', ts₂, hrest, h⟩ := Growth.bind_eq_ok.1 h
    cases h
    obtain ⟨⟨ids, hids, rfl⟩, hknown⟩ := ihrest ih.2 hrest
    have hextends := (onlyInserts_deriveVariants rest ts₁).isExtension
    rw [hrest] at hextends
    obtain ⟨hsid, hthroughout⟩ := (ih.1 hc).mono hextends
    refine ⟨⟨(x.1, x.2.1, sid) :: ids, ?_, rfl⟩, List.forall_mem_cons.2 ⟨hthroughout, hknown⟩⟩
    rw [coreVariants, variantIds_eq_mapM, List.mapM_cons, hsid, ← variantIds_eq_mapM, hids]
    rfl

/-- A codec of which the definition comes after that of one child. -/
theorem names_of_child {c item : Codec} {f : SemId → TypeDef} (hchildren : c.children = [item])
    (hdefinition : c.definition = do return f (← item.semId)) {ts ts' : TypeSystem}
    {itemId sid : SemId} (hitem : ts.Names item itemId)
    (h : Growth.insert (f itemId).toDraft ts = (.ok sid, ts')) : ts'.Names c sid := by
  refine names_of_insert (d := f itemId) ?_ ?_ h
  · rw [hdefinition, hitem.1]
    rfl
  · rw [hchildren]
    exact fun s hs => List.mem_singleton.1 hs ▸ hitem.2

/-- The definition of bytes gives their codec its id. -/
theorem names_of_byte {ts ts' : TypeSystem} {sid : SemId}
    (h : Growth.define (.primitive 1) ts = (.ok sid, ts')) : ts'.Names (uint 1) sid :=
  names_of_define rfl rfl h

/-- The definition of a character set gives the codec of its characters its id. -/
theorem names_of_charset {cs : Charset} {ts ts' : TypeSystem} {sid : SemId}
    (h : Growth.define cs.definition ts = (.ok sid, ts')) : ts'.Names (character cs) sid := by
  refine names_of_define ?_ rfl h
  rw [character, definition, Enumeration.members_ofCharset]
  rfl

/-- Strings derive: as a list of characters, or as a first character and a list of others. -/
theorem derives_ascii (first rest : Charset) (b : Bounds) (label : Option String) :
    Derives (ascii first rest b label) := by
  intro ts ts' sid h
  rw [derive, Growth.defineText, Growth.bind_eq_ok] at h
  obtain ⟨restId, ts₁, hrest, h⟩ := h
  rw [core]
  split
  · rename_i hsplit
    rw [if_pos hsplit, Growth.bind_eq_ok] at h
    obtain ⟨firstId, ts₂, hfirst, h⟩ := h
    obtain ⟨tailId, ts₃, htail, h⟩ := Growth.bind_eq_ok.1 h
    have hsecond := extends_of_insert (Growth.insert_eq_ok.1 hfirst)
    have hthird := extends_of_insert (Growth.insert_eq_ok.1 htail)
    have hfirsts := (names_of_charset hfirst).mono hthird
    have htails : ts₃.Names (list (character rest) b label) tailId :=
      names_of_child (f := fun item => .list item b.min b.max) rfl (by simp [semId])
        ((names_of_charset hrest).mono hsecond) htail
    refine names_of_insert (d := .struct [("first", firstId), ("rest", tailId)]) ?_ ?_ h
    · rw [definition, fieldIds_eq_mapM, List.mapM_cons, hfirsts.1, List.mapM_cons, htails.1]
      rfl
    · simp [children, hfirsts.2, htails.2]
  · rename_i hsplit
    rw [if_neg hsplit] at h
    exact names_of_child (f := fun item => .list item b.min b.max) rfl (by simp [semId])
      (names_of_charset hrest) h

/-- Maps of what derives derive. -/
theorem derives_map {key value : Codec} (hkey : Derives key) (hvalue : Derives value) (b : Bounds)
    (form : MapForm) (label : Option String) : Derives (map key value b form label) := by
  intro ts ts' sid h
  obtain ⟨keyId, ts₁, hkeys, h⟩ := Growth.bind_eq_ok.1 h
  obtain ⟨valueId, ts₂, hvalues, h⟩ := Growth.bind_eq_ok.1 h
  have hkeys := (hkey hkeys).mono (extends_of_derive hvalues)
  have hvalues := hvalue hvalues
  refine names_of_insert (d := .map keyId valueId b.min b.max) ?_ ?_ h
  · have hdefinition : (map key value b form label).core.definition = do
        let keyId ← key.core.semId
        let valueId ← value.core.semId
        return .map keyId valueId b.min b.max := by simp [semId]
    rw [hdefinition, hkeys.1, hvalues.1]
    rfl
  · simp [children, core, hkeys.2, hvalues.2]

/-- Optional values of what derives derive, as a union with nothing. -/
theorem derives_option {inner : Codec} (hinner : Derives inner) : Derives (option inner) := by
  intro ts ts' sid h
  obtain ⟨noneId, ts₁, hnone, h⟩ := Growth.bind_eq_ok.1 h
  obtain ⟨someId, ts₂, hsome, h⟩ := Growth.bind_eq_ok.1 h
  have hnones : ts₂.Names unit noneId :=
    (names_of_define rfl rfl hnone).mono (extends_of_derive hsome)
  have hsomes := hinner hsome
  refine names_of_insert (d := .union [(0, "none", noneId), (1, "some", someId)]) ?_ ?_ h
  · rw [core, definition, variantIds_eq_mapM, List.mapM_cons, hnones.1, List.mapM_cons, hsomes.1]
    rfl
  · simp [children, core, hnones.2, hsomes.2]

/-- Structs of what derives derive; a wrapped one has the id of its field. -/
theorem derives_struct {name : String} {fields : List (String × Codec)} {form : StructForm}
    {wrapped : Bool} (hfields : ∀ f ∈ fields, Derives f.2) :
    Derives (struct name fields form wrapped) := by
  intro ts ts' sid h
  cases fields with
  | nil => cases wrapped <;> exact names_of_define rfl rfl h
  | cons f rest =>
    cases wrapped with
    | true =>
      rw [core]
      rw [derive] at h
      exact hfields f (List.mem_cons_self ..) h
    | false =>
      rw [derive, Growth.bind_eq_ok] at h
      · obtain ⟨fs, ts₁, hderived, h⟩ := h
        obtain ⟨⟨ids, hids, rfl⟩, hknown⟩ := names_of_deriveFields hfields hderived
        rw [core_struct]
        refine names_of_insert (d := .struct ids) ?_ (List.forall_mem_map.2 hknown) h
        rw [definition, hids]
        rfl
      · nofun

/-- Every codec derives. -/
theorem derives (c : Codec) : Derives c := by
  induction c using childInduction with | h c ih => ?_
  intro ts ts' sid h
  cases c with
  | unit | unicode | uint size | sint size => exact names_of_define rfl rfl h
  | bool => exact names_of_define rfl rfl h
  | byteArray size | id kind =>
    obtain ⟨byteId, ts₁, hb, h⟩ := Growth.bind_eq_ok.1 h
    exact names_of_child (f := fun item => .array item _) rfl (by simp [semId]) (names_of_byte hb) h
  | bytes b label =>
    obtain ⟨byteId, ts₁, hb, h⟩ := Growth.bind_eq_ok.1 h
    exact names_of_child (f := fun item => .list item b.min b.max) rfl (by simp [semId])
      (names_of_byte hb) h
  | ascii first rest b label => exact derives_ascii first rest b label h
  | list item b label =>
    obtain ⟨itemId, ts₁, hitem, h⟩ := Growth.bind_eq_ok.1 h
    exact names_of_child (f := fun item => .list item b.min b.max) rfl (by simp [semId])
      (ih item (List.mem_singleton.2 rfl) hitem) h
  | set item b form label =>
    obtain ⟨itemId, ts₁, hitem, h⟩ := Growth.bind_eq_ok.1 h
    exact names_of_child (f := fun item => .set item b.min b.max) rfl (by simp [semId])
      (ih item (List.mem_singleton.2 rfl) hitem) h
  | array item count =>
    obtain ⟨itemId, ts₁, hitem, h⟩ := Growth.bind_eq_ok.1 h
    exact names_of_child (f := fun item => .array item count) rfl (by simp [semId])
      (ih item (List.mem_singleton.2 rfl) hitem) h
  | map key value b form label =>
    exact derives_map (ih key (List.mem_cons_self ..)) (ih value (by simp [children])) b form label h
  | option inner => exact derives_option (ih inner (List.mem_singleton.2 rfl)) h
  | tuple items =>
    obtain ⟨sids, ts₁, hitems, h⟩ := Growth.bind_eq_ok.1 h
    have hall : ∀ c ∈ items, Derives c := ih
    obtain ⟨hsids, hknown⟩ := names_of_deriveItems hall hitems
    refine names_of_insert (d := .tuple sids) ?_ hknown h
    rw [core, definition, hsids]
    rfl
  | struct name fields form wrapped => exact derives_struct (List.forall_mem_map.1 ih) h
  | union name variants =>
    obtain ⟨vs, ts₁, hvariants, h⟩ := Growth.bind_eq_ok.1 h
    obtain ⟨⟨ids, hids, rfl⟩, hknown⟩ := names_of_deriveVariants (List.forall_mem_map.1 ih) hvariants
    refine names_of_insert (d := .union ids) ?_ (List.forall_mem_map.2 hknown) h
    rw [core, definition, hids]
    rfl
  | enumeration decl => exact names_of_define (d := .enumeration decl.members) rfl rfl h

end Codec

/-! ## Conflicts -/

namespace TypeSystem

variable {ts : TypeSystem}

/-- A type system is in **conflict** with a definition if it holds another one under its id. The
encodings of the two definitions have one commitment, then. -/
def Conflicts (ts : TypeSystem) (d : TypeDef) : Prop :=
  ∃ sid known, d.toDraft.semId = .ok sid ∧ ts.get? sid = some known ∧ known ≠ d

/-- A codec in core form of which the definition stands under its id. -/
def Holds (ts : TypeSystem) (c : Codec) : Prop :=
  ∃ d sid, c.definition = .ok d ∧ d.toDraft.semId = .ok sid ∧ ts.get? sid = some d

/-- Where the id of a codec is taken and there is no conflict, its definition stands under it. -/
theorem Knows.holds {c : Codec} (h : ts.Knows c)
    (hconflict : ∀ d, c.definition = .ok d → ¬ ts.Conflicts d) : ts.Holds c := by
  obtain ⟨sid, hsid, hin⟩ := h
  obtain ⟨d, hd, hsid⟩ := StrictContract.bind_eq_ok.1 hsid
  obtain ⟨known, hknown⟩ := Option.isSome_iff_exists.1 hin
  refine ⟨d, sid, hd, hsid, ?_⟩
  rw [hknown, Decidable.of_not_not fun hne => hconflict d hd ⟨sid, known, hsid, hknown, hne⟩]

end TypeSystem

end StrictContract
