import Mathlib.Algebra.BigOperators.Group.List.Basic
import Mathlib.Algebra.GroupWithZero.Nat
import StrictContract.Proofs.TypeLibrary.Denoting
import StrictContract.Proofs.TypeLibrary.Naming

/-! # Fitting — definitions and forms that are accepted

A definition **fits** when it can be inserted behind those that it refers to; its ids do not matter for
that. A computation of the compiler **delivers** a result when it succeeds wherever there is room for a
number of definitions, and adds no more than these. So a form that fits delivers its id when the
references in it do. -/

namespace StrictContract

open TypeDef (partBounds)
open TypeSystem

variable {α β : Type}

/-! ## Definitions that fit -/

namespace TypeDef

open Codec (write_ofNat written_id written_list_iff written_mapping written_ofNat written_record_iff)

/-- A definition **fits** the codec of definitions when it has no part twice, neither no parts nor too
many, identifiers for names and numbers in range. Ids always fit. -/
def Fits : TypeDef → Prop
  | .primitive width => (width : Int) ∈ Draft.primitiveWidths
  | .unicode => True
  | .enumeration members => partBounds.admits members.length = true ∧ (members.map Prod.fst).Nodup ∧
      (members.map Prod.snd).Nodup ∧
      ∀ m ∈ members, TextPattern.isIdentifier m.1.toList = true ∧ m.2 < 256
  | .union variants => partBounds.admits variants.length = true ∧
      (variants.map fun x => x.2.1).Nodup ∧ (variants.map Prod.fst).Nodup ∧
      ∀ x ∈ variants, TextPattern.isIdentifier x.2.1.toList = true ∧ x.1 < 256
  | .tuple items => partBounds.admits items.length = true
  | .struct fields => partBounds.admits fields.length = true ∧ (fields.map Prod.fst).Nodup ∧
      ∀ f ∈ fields, TextPattern.isIdentifier f.1.toList = true
  | .array _ length => 1 ≤ length ∧ length < 65536
  | .list _ min max | .set _ min max | .map _ _ min max => min ≤ max ∧ max ≤ 0xffffffff

variable {d : TypeDef}

/-- A definition that fits obeys the rules. -/
theorem Fits.valid (h : d.Fits) : d.toDraft.validate = .ok () := by
  cases d with
  | primitive width =>
    have hwidth : (width : Int) ∈ Draft.primitiveWidths := h
    simp [toDraft, Definition.mapParts, Draft.validate, Value.ofNat, Value.number?, hwidth]
    rfl
  | enumeration members =>
    have hnames := (Draft.checkUnique_text "enum variant name").2 h.2.1
    have htags := (Draft.checkUnique_ofNat "enum tag").2 h.2.2.1
    rw [List.map_map] at hnames htags
    refine bind_eq_ok.2 ⟨(), ?_, ?_⟩
    · rw [List.map_map]
      exact hnames
    · rw [List.map_map]
      exact htags
  | union variants =>
    have hnames := (Draft.checkUnique_text "union variant name").2 h.2.1
    simpa [toDraft, Definition.mapParts, Draft.validate, Function.comp_def] using hnames
  | struct fields =>
    have hnames := (Draft.checkUnique_text "field name").2 h.2.1
    simpa [toDraft, Definition.mapParts, Draft.validate, Function.comp_def] using hnames
  | array item length =>
    have hprecedes : (Value.ofNat length).precedes (.int 1) = .ok false := by
      rw [show Value.int 1 = .ofNat 1 from rfl, Value.precedes_ofNat,
        decide_eq_false (Nat.not_lt.2 h.1)]
    simp only [toDraft, Definition.mapParts, Draft.validate, hprecedes]
    rfl
  | list item min max | set item min max | map key value min max =>
    exact Draft.checkSizing_ofNat.2 h.1
  | unicode | tuple items => rfl

/-- A definition that fits is written. -/
theorem Fits.written (h : d.Fits) : codec.Written d.toValue := by
  -- a definition is a variant of the union of all kinds: what has to be written is the record of its parts
  cases d with
  | primitive width =>
    have hwidth : width < Octets.span 1 := by
      simp only [Fits, Draft.primitiveWidths, List.mem_cons, List.not_mem_nil, or_false] at h
      simp only [Octets.span_succ, Octets.span_zero]
      omega
    exact written_variant 0 rfl rfl
      ((written_record_iff (by decide) rfl).2 ⟨written_ofNat hwidth, trivial⟩)
  | unicode => exact written_variant 1 rfl rfl ((written_record_iff (by decide) rfl).2 trivial)
  | enumeration members =>
    refine written_variant 2 rfl rfl ((written_record_iff (by decide) rfl).2 ⟨?_, trivial⟩)
    refine written_list_iff.2 ⟨by simpa using h.1, ?_⟩
    refine List.forall_mem_map.2 (List.forall_mem_map.2 fun m hm => ?_)
    obtain ⟨hname, htag⟩ := h.2.2.2 m hm
    exact (written_record_iff (by decide) rfl).2
      ⟨written_identCodec_iff.2 hname, written_ofNat htag, trivial⟩
  | union variants =>
    refine written_variant 3 rfl rfl ((written_record_iff (by decide) rfl).2 ⟨?_, trivial⟩)
    refine written_mapping (by simpa using h.1) ?_ ?_
    · refine List.forall_mem_map.2 (List.forall_mem_map.2 fun x hx => ?_)
      obtain ⟨hname, htag⟩ := h.2.2.2 x hx
      exact ⟨written_ofNat htag, (written_record_iff (by decide) rfl).2
        ⟨written_identCodec_iff.2 hname, written_id .., trivial⟩⟩
    · -- different tags are written as different bytes
      have hback : ∀ {tag : Nat}, tag < 256 → Octets.toNat (Octets.ofNat 1 tag) = tag := fun htag =>
        Octets.toNat_ofNat htag
      refine List.pairwise_map.2 (List.pairwise_map.2 ?_)
      refine (List.pairwise_map.1 h.2.2.1).imp_of_mem fun {x y} hx hy hne heq => hne ?_
      rw [write_ofNat (h.2.2.2 x hx).2, write_ofNat (h.2.2.2 y hy).2] at heq
      rw [← hback (h.2.2.2 x hx).2, Except.ok.inj heq, hback (h.2.2.2 y hy).2]
  | tuple items =>
    refine written_variant 4 rfl rfl ((written_record_iff (by decide) rfl).2 ⟨?_, trivial⟩)
    refine written_list_iff.2 ⟨?_, List.forall_mem_map.2 fun item _ => written_id ..⟩
    rwa [List.length_map]
  | struct fields =>
    refine written_variant 5 rfl rfl ((written_record_iff (by decide) rfl).2 ⟨?_, trivial⟩)
    refine written_list_iff.2 ⟨by simpa using h.1, ?_⟩
    refine List.forall_mem_map.2 (List.forall_mem_map.2 fun f hf => ?_)
    exact (written_record_iff (by decide) rfl).2
      ⟨written_identCodec_iff.2 (h.2.2 f hf), written_id .., trivial⟩
  | array item length =>
    exact written_variant 6 rfl rfl
      ((written_record_iff (by decide) rfl).2 ⟨written_id .., written_ofNat h.2, trivial⟩)
  | list item min max =>
    exact written_variant 7 rfl rfl
      ((written_record_iff (by decide) rfl).2 ⟨written_id .., written_sizing h.1 h.2, trivial⟩)
  | set item min max =>
    exact written_variant 8 rfl rfl
      ((written_record_iff (by decide) rfl).2 ⟨written_id .., written_sizing h.1 h.2, trivial⟩)
  | map key value min max =>
    exact written_variant 9 rfl rfl ((written_record_iff (by decide) rfl).2
      ⟨written_id .., written_id .., written_sizing h.1 h.2, trivial⟩)

end TypeDef

/-- A definition that fits is inserted behind those that it refers to, if there is room for it. -/
theorem TypeSystem.exists_insert_of_fits {ts : TypeSystem} {d : TypeDef} (hd : d.Fits)
    (hrefs : ∀ ref ∈ d.references, ts.contains ref = true) (hroom : ts.size < capacity) :
    ∃ sid ts', ts.insert d.toDraft = .ok (sid, ts') ∧ ts'.size ≤ ts.size + 1 := by
  obtain ⟨p, hp⟩ := hd.written
  have hinserted : ∃ ts', ts.insert d.toDraft = .ok (Id.ofContent .sem p, ts') :=
    exists_insert hd.valid (by rwa [TypeDef.references_toDraft]) (bind_eq_ok.2 ⟨p, hp, rfl⟩)
      fun _ => hroom
  obtain ⟨ts', hinsert⟩ := hinserted
  exact ⟨_, ts', hinsert, size_of_insert hinsert⟩

/-! ## Forms that fit -/

namespace Form

variable {means : String → SemId → Prop}

/-- Whether a form **fits**: what it describes does, whatever the ids of the types are. -/
def fits : Form → Bool
  | primitive width => Draft.primitiveWidths.contains (width : Int)
  | unicode => true
  | enumeration members => partBounds.admits members.length && decide (members.map Prod.fst).Nodup &&
      decide (members.map Prod.snd).Nodup &&
      members.all fun m => TextPattern.isIdentifier m.1.toList && decide (m.2 < 256)
  | union variants => partBounds.admits variants.length && decide (variants.map Prod.fst).Nodup &&
      decide (variants.map fun v => v.2.1).Nodup &&
      variants.all fun v => TextPattern.isIdentifier v.1.toList && decide (v.2.1 < 256)
  | option _ => true
  | tuple items => partBounds.admits items.length
  | struct fields => partBounds.admits fields.length && decide (fields.map Prod.fst).Nodup &&
      fields.all fun f => TextPattern.isIdentifier f.1.toList
  | array _ length => decide (1 ≤ length) && decide (length < 65536)
  | list _ min max | set _ min max | map _ _ min max => decide (min ≤ max) && decide (max ≤ 0xffffffff)
  | ascii first rest min max => decide (min ≤ max) && decide (max ≤ 0xffffffff) &&
      (!Codec.isSplit first rest || decide (1 ≤ min))

/-- The rows of a union have the names and tags of its variants. -/
theorem labels_of_rows {variants : List (String × Nat × String)} {rows : List (Nat × String × SemId)}
    (h : List.Forall₂ (fun v row => row.1 = v.2.1 ∧ row.2.1 = v.1 ∧ means v.2.2 row.2.2)
      variants rows) :
    (rows.map fun row => (row.2.1, row.1)) = variants.map fun v => (v.1, v.2.1) := by
  rw [← List.forall₂_eq_eq_eq, List.forall₂_map_left_iff, List.forall₂_map_right_iff]
  exact h.flip.imp fun _ _ hrow => Prod.ext hrow.2.1 hrow.1

/-- What a form that fits describes fits. -/
theorem Describes.fits {form : Form} {d : TypeDef} (h : form.Describes means d)
    (hform : form.fits = true) : d.Fits := by
  -- names and tags are all that matters of members and variants
  have hlabels : ∀ {labels labels' : List (String × Nat)}, labels'.Perm labels →
      partBounds.admits labels.length = true → (labels.map Prod.fst).Nodup →
      (labels.map Prod.snd).Nodup →
      (∀ l ∈ labels, TextPattern.isIdentifier l.1.toList = true ∧ l.2 < 256) →
      partBounds.admits labels'.length = true ∧ (labels'.map Prod.fst).Nodup ∧
        (labels'.map Prod.snd).Nodup ∧
        ∀ l ∈ labels', TextPattern.isIdentifier l.1.toList = true ∧ l.2 < 256 := by
    intro labels labels' hperm hlength hnames htags hall
    exact ⟨hperm.length_eq ▸ hlength, (hperm.map _).nodup_iff.2 hnames, (hperm.map _).nodup_iff.2 htags,
      fun l hl => hall l (hperm.mem_iff.1 hl)⟩
  cases h with
  | primitive width => exact List.contains_iff_mem.1 hform
  | unicode => trivial
  | enumeration members =>
    simp only [Form.fits, Bool.and_eq_true, decide_eq_true_eq, List.all_eq_true] at hform
    exact hlabels (List.mergeSort_perm ..) hform.1.1.1 hform.1.1.2 hform.1.2 hform.2
  | @union variants rows hrows =>
    simp only [Form.fits, Bool.and_eq_true, decide_eq_true_eq, List.all_eq_true] at hform
    obtain ⟨⟨⟨hlength, hnames⟩, htags⟩, hall⟩ := hform
    -- as no tag is there twice, no row is lost: the labels of the rows are those of the variants, sorted
    obtain ⟨vs, rows', hvs, hrows', hall'⟩ := (Describes.union hrows).whole_iff.2 htags
    have hperm : (rows'.map fun row => (row.2.1, row.1)).Perm (variants.map fun v => (v.1, v.2.1)) :=
      labels_of_rows hall' ▸ hvs.map _
    have h := hlabels hperm (by rwa [List.length_map]) (by rwa [List.map_map]) (by rwa [List.map_map])
      (List.forall_mem_map.2 hall)
    rw [List.length_map, List.map_map, List.map_map, List.forall_mem_map] at h
    rw [hrows']
    exact h
  | option hnone hsome =>
    have hnames : ["none", "some"].Nodup := by decide
    have htags : [0, 1].Nodup := by decide
    have hall : ∀ l ∈ [("none", 0), ("some", 1)],
        TextPattern.isIdentifier l.1.toList = true ∧ l.2 < 256 := by decide
    exact ⟨rfl, hnames, htags, List.forall_mem_cons.2 ⟨hall _ (.head _),
      List.forall_mem_singleton.2 (hall _ (.tail _ (.head _)))⟩⟩
  | @tuple items sids hitems =>
    show partBounds.admits sids.length = true
    rwa [← hitems.length_eq]
  | @struct fields known hfields =>
    simp only [Form.fits, Bool.and_eq_true, decide_eq_true_eq, List.all_eq_true] at hform
    obtain ⟨⟨hlength, hnames⟩, hall⟩ := hform
    have hknown : known.map Prod.fst = fields.map Prod.fst := by
      rw [← List.forall₂_eq_eq_eq, List.forall₂_map_left_iff, List.forall₂_map_right_iff]
      exact hfields.flip.imp fun _ _ hf => hf.1
    refine ⟨hfields.length_eq ▸ hlength, hknown ▸ hnames, ?_⟩
    rw [← List.forall_mem_map (f := Prod.fst) (P := fun name : String =>
      TextPattern.isIdentifier name.toList = true)] at hall ⊢
    rwa [hknown]
  | array hitem length =>
    simp only [Form.fits, Bool.and_eq_true, decide_eq_true_eq] at hform
    exact hform
  | list hitem min max | set hitem min max | map hkey hvalue min max =>
    simp only [Form.fits, Bool.and_eq_true, decide_eq_true_eq] at hform
    exact hform
  | text hsid min max =>
    simp only [Form.fits, Bool.and_eq_true, decide_eq_true_eq] at hform
    exact hform.1
  | splitText hsplit hfirst hrest htail =>
    have hnames : ["first", "rest"].Nodup := by decide
    have hall : ∀ name ∈ ["first", "rest"], TextPattern.isIdentifier name.toList = true := by decide
    exact ⟨rfl, hnames, List.forall_mem_cons.2 ⟨hall _ (.head _),
      List.forall_mem_singleton.2 (hall _ (.tail _ (.head _)))⟩⟩

/-- A form that fits passes the check. -/
theorem check_of_fits {form : Form} (h : form.fits = true) (name : String) :
    form.check name = .ok () := by
  cases form with
  | ascii first rest min max =>
    simp only [fits, Bool.and_eq_true, Bool.or_eq_true, Bool.not_eq_true', decide_eq_true_eq] at h
    refine bind_eq_ok.2 ⟨(), Draft.checkSizing_ofNat.2 h.1.1, ?_⟩
    rcases h.2 with hsplit | hmin
    · rw [hsplit]
      rfl
    · split
      · rw [if_neg (Nat.not_lt.2 hmin)]
        rfl
      · rfl
  | _ => rfl

end Form

/-- The definition of a builtin fits. -/
theorem Codec.exists_fits_of_builtin {ty : String} {c : Codec} (h : Codec.builtin? ty = some c) :
    ∃ d : TypeDef, c.derive = Growth.define d ∧ d.Fits ∧ d.references = [] := by
  have hprimitive : ∀ width : Nat, (width : Int) ∈ Draft.primitiveWidths →
      TypeDef.Fits (.primitive width) := fun _ hwidth => hwidth
  have hbool : TypeDef.bool.Fits := ⟨by decide, by decide, by decide, by decide⟩
  unfold Codec.builtin? at h
  split at h <;> cases h
  case h_12 => exact ⟨.bool, rfl, hbool, rfl⟩
  case h_14 => exact ⟨.unicode, rfl, trivial, rfl⟩
  all_goals exact ⟨.primitive _, rfl, hprimitive _ (by decide), rfl⟩

/-- The definition of the characters of a charset fits. -/
theorem Charset.fits_definition (cs : Charset) : cs.definition.Fits := by
  have hnames : (cs.chars.map charName).Nodup := nodup_charNames.sublist (List.filter_sublist.map _)
  have hcodes : (cs.chars.map Char.toNat).Nodup := nodup_toNat_chars
  have hlength : partBounds.admits cs.chars.length = true := by cases cs <;> decide +kernel
  have hchars : ∀ c ∈ cs.chars, TextPattern.isIdentifier (charName c).toList = true ∧ c.toNat < 256 :=
    fun c hc => ⟨isIdentifier_charName hc,
      Nat.lt_trans (toNat_lt_of_contains (mem_chars.1 hc)) (by decide)⟩
  refine ⟨by rwa [List.length_map], ?_, ?_, List.forall_mem_map.2 hchars⟩
  · rwa [List.map_map]
  · rwa [List.map_map]

/-! ## Deliveries -/

/-- A workbench in which every name has an id that is there. -/
def Workbench.Held (w : Workbench) : Prop := ∀ e ∈ w.names, w.types.contains e.2 = true

/-- A condition on workbenches that **persists** while they grow. -/
def Persists (P : Workbench → Prop) : Prop := ∀ w w', w.Grows w' → P w → P w'

namespace Compiling

variable {P P' : Workbench → Prop} {Q : Workbench → α → Prop} {R : Workbench → β → Prop} {k l : Nat}

/-- A computation **delivers** a result with the fact `Q` from each workbench with the condition `P`, if
there is room for `k` definitions; it adds no more than these. -/
def Delivers (k : Nat) (P : Workbench → Prop) (m : Compiling α) (Q : Workbench → α → Prop) : Prop :=
  ∀ w, w.Held → P w → w.types.size + k ≤ capacity → ∃ a w', m w = (.ok a, w') ∧ w.Grows w' ∧ w'.Held ∧
    w'.types.size ≤ w.types.size + k ∧ Q w' a

theorem delivers_pure {a : α} (h : ∀ w, P w → Q w a) : Delivers k P (pure a) Q :=
  fun w hheld hw _ => ⟨a, w, rfl, .refl w, hheld, Nat.le_add_right .., h w hw⟩

/-- What there can be no room for is delivered. -/
theorem delivers_of_capacity_lt {m : Compiling α} (h : capacity < k) : Delivers k P m Q :=
  fun _ _ _ hroom => absurd hroom (by omega)

theorem Delivers.imp {m : Compiling α} {Q' : Workbench → α → Prop} (hm : Delivers k P m Q)
    (h : ∀ w a, Q w a → Q' w a) : Delivers k P m Q' := by
  intro w hheld hw hroom
  obtain ⟨a, w', hrun, hgrows, hheld', hsize, ha⟩ := hm w hheld hw hroom
  exact ⟨a, w', hrun, hgrows, hheld', hsize, h w' a ha⟩

/-- More may be asked of the workbench, and of its room. -/
theorem Delivers.weaken {m : Compiling α} (hm : Delivers k P m Q) (hP : ∀ w, P' w → P w)
    (hk : k ≤ l) : Delivers l P' m Q := by
  intro w hheld hw hroom
  obtain ⟨a, w', hrun, hgrows, hheld', hsize, ha⟩ := hm w hheld (hP w hw) (by omega)
  exact ⟨a, w', hrun, hgrows, hheld', by omega, ha⟩

/-- Steps one after another: the second one starts with what the first one delivers. -/
theorem Delivers.bind {m : Compiling α} {f : α → Compiling β} (hm : Delivers k P m Q)
    (hP : Persists P) (hf : ∀ a, Delivers l (fun w => P w ∧ Q w a) (f a) R) :
    Delivers (k + l) P (m >>= f) R := by
  intro w hheld hw hroom
  obtain ⟨a, w', hrun, hgrows, hheld', hsize, ha⟩ := hm w hheld hw (by omega)
  obtain ⟨b, w'', hrun', hgrows', hheld'', hsize', hb⟩ :=
    hf a w' hheld' ⟨hP w w' hgrows hw, ha⟩ (by omega)
  exact ⟨b, w'', bind_apply_eq_ok.2 ⟨a, w', hrun, hrun'⟩, hgrows.trans hgrows', hheld'', by omega, hb⟩

/-- A loop delivers for each item what its round does. -/
theorem delivers_mapM {f : α → Compiling β} {S : α → Workbench → β → Prop} (hP : Persists P)
    (hS : ∀ x, Lasting (S x)) (cost : α → Nat) {xs : List α}
    (h : ∀ x ∈ xs, Delivers (cost x) P (f x) (S x)) :
    Delivers (xs.map cost).sum P (xs.mapM f) fun w ys => List.Forall₂ (fun x y => S x w y) xs ys := by
  induction xs with
  | nil => exact delivers_pure fun _ _ => .nil
  | cons x xs ih =>
    rw [List.forall_mem_cons] at h
    rw [List.mapM_cons, List.map_cons, List.sum_cons]
    refine h.1.bind hP fun y => ?_
    -- the result of the first round has to last through the others
    have hrest : Delivers _ (fun w => P w ∧ S x w y) _ _ :=
      (ih h.2).weaken (fun _ hw => hw.1) (Nat.le_refl _)
    have hkept : Persists fun w => P w ∧ S x w y := fun w w' hgrows hw =>
      ⟨hP w w' hgrows hw.1, hS x w w' y hgrows hw.2⟩
    exact hrest.bind (l := 0) hkept fun ys => delivers_pure fun w hw => .cons hw.1.2 hw.2

/-- A loop without results delivers when its rounds do. -/
theorem delivers_forM {f : α → Compiling Unit} (hP : Persists P) (cost : α → Nat) {xs : List α}
    (h : ∀ x ∈ xs, Delivers (cost x) P (f x) fun _ _ => True) :
    Delivers (xs.map cost).sum P (xs.forM f) fun _ _ => True := by
  induction xs with
  | nil => exact delivers_pure fun _ _ => trivial
  | cons x xs ih =>
    rw [List.forall_mem_cons] at h
    rw [List.map_cons, List.sum_cons]
    exact h.1.bind (f := fun _ => xs.forM f) hP fun _ =>
      (ih h.2).weaken (fun _ hw => hw.1) (Nat.le_refl _)

/-- A definition that fits is delivered behind those that it refers to. -/
theorem delivers_insert {d : TypeDef} (hd : d.Fits)
    (hrefs : ∀ w, P w → ∀ ref ∈ d.references, w.types.contains ref = true) :
    Delivers 1 P (insert d.toDraft) fun w sid => w.types.Stands d.toDraft sid := by
  intro w hheld hw hroom
  obtain ⟨sid, ts, hinsert, hsize⟩ :=
    exists_insert_of_fits hd (hrefs w hw) (by omega : w.types.size < capacity)
  have hextends := extends_of_insert hinsert
  refine ⟨sid, { w with types := ts }, ?_, ⟨.step hinsert (.refl _), List.prefix_rfl⟩,
    fun e he => hextends.contains (hheld e he), hsize, stands_of_insert hinsert⟩
  rw [insert, grow, Growth.insert_eq_ok.2 hinsert]

/-- A name for the place of errors changes no delivery. -/
theorem Delivers.placed {m : Compiling α} (hm : Delivers k P m Q) (name : String) :
    Delivers k P (placed name m) Q := by
  intro w hheld hw hroom
  obtain ⟨a, w', hrun, hrest⟩ := hm w hheld hw hroom
  exact ⟨a, w', by rw [Compiling.placed, hrun], hrest⟩

end Compiling

/-! ## Estimates -/

namespace Form

open Compiling (Delivers delivers_insert delivers_mapM delivers_pure)

variable {P : Workbench → Prop} {ref : String → String → Compiling SemId} {cost : String → Nat}

/-- The types that a form refers to. -/
def types : Form → List String
  | union variants => variants.map fun v => v.2.2
  | option inner => ["Unit", inner]
  | tuple items => items
  | struct fields => fields.map Prod.snd
  | array item _ | list item _ _ | set item _ _ => [item]
  | map key value _ _ => [key, value]
  | primitive _ | unicode | enumeration _ | ascii _ _ _ _ => []

/-- A definition is **ready** to be inserted when the form describes it and its references are there. -/
def Ready (form : Form) (w : Workbench) (d : TypeDef) : Prop :=
  form.Describes (fun _ _ => True) d ∧ ∀ sid ∈ d.references, w.types.contains sid = true

/-- What is there stays there. -/
theorem lasting_held {sid : SemId} : Persists fun w => w.types.contains sid = true :=
  fun _ _ hgrows h => hgrows.types.isExtension.contains h

/-- Parts with ids that are there: the parts, and the ids. -/
theorem forall₂_held {γ δ : Type} {S : γ → δ → Prop} {sid : δ → SemId} {w : Workbench} {xs : List γ}
    {ys : List δ} (h : List.Forall₂ (fun x y => S x y ∧ w.types.contains (sid y) = true) xs ys) :
    List.Forall₂ S xs ys ∧ ∀ y ∈ ys, w.types.contains (sid y) = true :=
  ⟨h.imp fun _ _ h => h.1, ((List.forall₂_and_left ..).1 (h.flip.imp fun _ _ h => ⟨h.2, h.1⟩)).1⟩

/-- A definition of two parts is delivered. -/
theorem delivers_pair (hP : Persists P) (href : ∀ ty place, Delivers (cost ty) P (ref ty place)
      fun w sid => w.types.contains sid = true) {form : Form} {first second : String}
    (f : SemId → SemId → TypeDef)
    (hf : ∀ a b, form.Describes (fun _ _ => True) (f a b) ∧ (f a b).references = [a, b])
    (name : String) :
    Delivers (cost first + cost second) P (do return f (← ref first name) (← ref second name))
      form.Ready := by
  have hkept : ∀ sid, Persists fun w => P w ∧ w.types.contains sid = true :=
    fun sid w w' hgrows h => ⟨hP w w' hgrows h.1, lasting_held w w' hgrows h.2⟩
  refine (href first name).bind hP fun a => ?_
  refine ((href second name).weaken (fun _ h => h.1) (Nat.le_refl _)).bind (l := 0) (hkept a)
    fun b => delivers_pure fun w h => ?_
  obtain ⟨hdescribes, hrefs⟩ := hf a b
  refine ⟨hdescribes, ?_⟩
  rw [hrefs]
  exact List.forall_mem_cons.2 ⟨h.1.2, List.forall_mem_singleton.2 h.2⟩

/-- The definition of a text is delivered: as a list of characters, or as a first character and a list
of the others. -/
theorem delivers_text (hP : Persists P) {first rest : Charset} {min max : Nat}
    (hform : (ascii first rest min max).fits = true) (name : String) :
    Delivers 3 P ((ascii first rest min max).assemble ref (fun d => .insert d.toDraft) name)
      (ascii first rest min max).Ready := by
  simp only [fits, Bool.and_eq_true, Bool.or_eq_true, Bool.not_eq_true', decide_eq_true_eq] at hform
  obtain ⟨⟨hle, hmax⟩, hsome⟩ := hform
  have hchars : ∀ (cs : Charset) {P' : Workbench → Prop}, Delivers 1 P'
      (.insert cs.definition.toDraft) fun w sid => w.types.Stands cs.definition.toDraft sid :=
    fun cs _ => delivers_insert cs.fits_definition fun _ _ => List.forall_mem_nil _
  have hkept : ∀ {P' : Workbench → Prop} {d : Draft} {sid : SemId}, Persists P' →
      Persists fun w => P' w ∧ w.types.Stands d sid := fun hP' w w' hgrows h =>
    ⟨hP' w w' hgrows h.1, h.2.mono hgrows.types.isExtension⟩
  refine (hchars rest).bind (l := 2) hP fun restId => ?_
  cases hsplit : Codec.isSplit first rest with
  | false =>
    obtain rfl : first = rest := by simpa [Codec.isSplit] using hsplit
    exact delivers_pure fun w h => ⟨.text h.2.named min max, List.forall_mem_singleton.2 h.2.held⟩
  | true =>
    have hmin : 1 ≤ min := hsome.resolve_left (by simp [hsplit])
    have htail : TypeDef.Fits (.list restId (min - 1) (max - 1)) :=
      ⟨Nat.sub_le_sub_right hle 1, Nat.le_trans (Nat.sub_le ..) hmax⟩
    refine (hchars first).bind (l := 1) (hkept hP) fun firstId => ?_
    refine (delivers_insert htail fun w h => List.forall_mem_singleton.2 h.1.2.held).bind (l := 0)
      (hkept (hkept hP)) fun tailId => delivers_pure fun w h => ?_
    exact ⟨.splitText hsplit h.1.2.named h.1.1.2.named h.2.named,
      List.forall_mem_cons.2 ⟨h.1.2.held, List.forall_mem_singleton.2 h.2.held⟩⟩

/-- Assembling a form that fits delivers a definition that is ready. -/
theorem delivers_assemble (hP : Persists P) (href : ∀ ty place, Delivers (cost ty) P (ref ty place)
      fun w sid => w.types.contains sid = true) {form : Form} (hform : form.fits = true)
    (name : String) :
    Delivers ((form.types.map cost).sum + 3) P
      (form.assemble ref (fun d => .insert d.toDraft) name) form.Ready := by
  have hpair : ∀ first second, cost first + cost second ≤ ([first, second].map cost).sum + 3 := by
    intro first second
    simp only [List.map_cons, List.map_nil, List.sum_cons, List.sum_nil]
    omega
  cases form with
  | primitive width => exact delivers_pure fun _ _ => ⟨.primitive width, List.forall_mem_nil _⟩
  | unicode => exact delivers_pure fun _ _ => ⟨.unicode, List.forall_mem_nil _⟩
  | enumeration members =>
    exact delivers_pure fun _ _ => ⟨.enumeration members, List.forall_mem_nil _⟩
  | union variants =>
    have hrow : ∀ v : String × Nat × String, Lasting fun w (row : Nat × String × SemId) =>
        (row.1 = v.2.1 ∧ row.2.1 = v.1 ∧ True) ∧ w.types.contains row.2.2 = true :=
      fun v w w' row hgrows h => ⟨h.1, lasting_held w w' hgrows h.2⟩
    have hsum : ((variants.mergeSort fun a b => decide (a.2.1 ≤ b.2.1)).map fun v => cost v.2.2).sum =
        ((union variants).types.map cost).sum := by
      rw [types, List.map_map]
      exact ((List.mergeSort_perm variants _).map _).sum_eq
    rw [← hsum]
    refine (delivers_mapM hP hrow _ fun v _ => ?_).bind hP fun rows => delivers_pure fun w h => ?_
    · exact (href v.2.2 name).bind (l := 0) hP fun sid =>
        delivers_pure fun w h => ⟨⟨rfl, rfl, trivial⟩, h.2⟩
    · obtain ⟨hrows, hsids⟩ := forall₂_held h.2
      refine ⟨.union hrows, List.forall_mem_map.2 fun row hrow => ?_⟩
      exact hsids row (mem_of_mem_lastByKey hrow)
  | option inner =>
    exact (delivers_pair hP href _ (fun none some => ⟨.option trivial trivial, rfl⟩) name).weaken
      (fun _ h => h) (hpair "Unit" inner)
  | tuple items =>
    have hitem : ∀ item : String, Lasting fun w (sid : SemId) =>
        True ∧ w.types.contains sid = true :=
      fun item w w' sid hgrows h => ⟨h.1, lasting_held w w' hgrows h.2⟩
    refine (delivers_mapM hP hitem cost fun item _ => ?_).bind hP fun sids =>
      delivers_pure fun w h => ?_
    · exact (href item name).imp fun w sid h => ⟨trivial, h⟩
    · obtain ⟨hitems, hsids⟩ := forall₂_held h.2
      exact ⟨.tuple hitems, hsids⟩
  | struct fields =>
    have hfield : ∀ f : String × String, Lasting fun w (k : String × SemId) =>
        (k.1 = f.1 ∧ True) ∧ w.types.contains k.2 = true :=
      fun f w w' k hgrows h => ⟨h.1, lasting_held w w' hgrows h.2⟩
    rw [types, List.map_map]
    refine (delivers_mapM hP hfield _ fun f _ => ?_).bind hP fun known => delivers_pure fun w h => ?_
    · exact (href f.2 _).bind (l := 0) hP fun sid => delivers_pure fun w h => ⟨⟨rfl, trivial⟩, h.2⟩
    · obtain ⟨hknown, hsids⟩ := forall₂_held h.2
      exact ⟨.struct hknown, List.forall_mem_map.2 hsids⟩
  | array item length =>
    exact (href item name).bind hP fun sid => delivers_pure fun w h =>
      ⟨.array trivial length, List.forall_mem_singleton.2 h.2⟩
  | list item min max =>
    exact (href item name).bind hP fun sid => delivers_pure fun w h =>
      ⟨.list trivial min max, List.forall_mem_singleton.2 h.2⟩
  | ascii first rest min max => exact delivers_text hP hform name
  | set item min max =>
    exact (href item name).bind hP fun sid => delivers_pure fun w h =>
      ⟨.set trivial min max, List.forall_mem_singleton.2 h.2⟩
  | map key value min max =>
    exact (delivers_pair hP href _ (fun k v => ⟨.map trivial trivial min max, rfl⟩) name).weaken
      (fun _ h => h) (hpair key value)

/-- The number of definitions that compiling a form inserts at most. There is no room for a form that
does not fit. -/
def estimate (cost : String → Nat) (form : Form) : Nat :=
  if form.fits then (form.types.map cost).sum + 4 else capacity + 1

/-- Compiling a form delivers its id. -/
theorem delivers_compile (hP : Persists P) (href : ∀ ty place, Delivers (cost ty) P (ref ty place)
      fun w sid => w.types.contains sid = true) (form : Form) (name : String) :
    Delivers (form.estimate cost) P (form.compile ref name)
      fun w sid => w.types.contains sid = true := by
  unfold estimate
  split
  · rename_i hform
    rw [compile, check_of_fits hform, given_ok, pure_bind]
    refine (delivers_assemble hP href hform name).bind (l := 1) hP fun d => ?_
    -- what is ready fits, but whether it is described does not depend on the workbench
    by_cases hd : form.Describes (fun _ _ => True) d
    · exact (delivers_insert (hd.fits hform) fun w h => h.2.2).imp fun w sid h => h.held
    · exact fun w _ h => absurd h.2.1 hd
  · exact Compiling.delivers_of_capacity_lt (Nat.lt_succ_self _)

end Form

end StrictContract
