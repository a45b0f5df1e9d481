import StrictContract.Proofs.Codec.Writing

/-! # Alike values — equality that looks into collections

Two values are **alike** if they are equal part by part, where the elements of a set and the entries
of a mapping may come in any order, numbers are compared by the number they stand for, and byte
strings, identifiers and script libraries by their bytes. No type has a comparison of its own here:
records are alike when all their fields are. -/

namespace StrictContract

namespace Value

/-- `v.Alike w`: the two values are equal up to the order of sets and mappings. -/
inductive Alike : Value → Value → Prop
  | refl (v : Value) : Alike v v
  | number {v w : Value} {n : Int} : v.number? = some n → w.number? = some n → Alike v w
  | octets {v w : Value} {o : Octets} : v.octets? = some o → w.octets? = some o → Alike v w
  | list {xs : List (Value × Value)} : (∀ x ∈ xs, Alike x.1 x.2) →
      Alike (.list (xs.map Prod.fst)) (.list (xs.map Prod.snd))
  | tuple {xs : List (Value × Value)} : (∀ x ∈ xs, Alike x.1 x.2) →
      Alike (.tuple (xs.map Prod.fst)) (.tuple (xs.map Prod.snd))
  | set {vs ws : List Value} {xs : List (Value × Value)} : vs.Perm (xs.map Prod.fst) →
      ws.Perm (xs.map Prod.snd) → (∀ x ∈ xs, Alike x.1 x.2) → Alike (.set vs) (.set ws)
  | map {vs ws : List (Value × Value)} {es : List ((Value × Value) × (Value × Value))} :
      vs.Perm (es.map Prod.fst) → ws.Perm (es.map Prod.snd) → (∀ e ∈ es, Alike e.1.1 e.2.1) →
      (∀ e ∈ es, Alike e.1.2 e.2.2) → Alike (.map vs) (.map ws)
  | tagged {variant : String} {v w : Value} : Alike v w →
      Alike (.tagged variant v) (.tagged variant w)
  | record {type : String} {xs : List ((String × Value) × (String × Value))} : type ≠ "Lib" →
      (∀ x ∈ xs, x.1.1 = x.2.1) → (∀ x ∈ xs, Alike x.1.2 x.2.2) →
      Alike (.record type (xs.map Prod.fst)) (.record type (xs.map Prod.snd))
  | declared {type : RecordType} {xs : List ((String × Value) × (String × Value))} :
      (∀ x ∈ xs, x.1.1 = x.2.1) → (∀ x ∈ xs, Alike x.1.2 x.2.2) →
      Alike (.declared type (xs.map Prod.fst)) (.declared type (xs.map Prod.snd))

/-- Records other than script libraries are no byte strings. -/
theorem octets?_record {type : String} (ht : type ≠ "Lib") (fields : List (String × Value)) :
    (record type fields).octets? = none := by
  unfold octets?
  split <;> simp_all

namespace Alike

/-- Mappings with the same entries are alike. -/
theorem map_of_perm {vs ws : List (Value × Value)} (h : vs.Perm ws) : Alike (.map vs) (.map ws) := by
  refine @map _ _ (ws.map fun e => (e, e)) ?_ ?_ (List.forall_mem_map.2 fun e _ => .refl _)
    (List.forall_mem_map.2 fun e _ => .refl _)
  · simpa [Function.comp_def] using h
  · simp [Function.comp_def]

/-- Values are alike in both directions. -/
theorem symm {v w : Value} (h : Alike v w) : Alike w v := by
  induction h with
  | refl v => exact refl v
  | number hv hw => exact number hw hv
  | octets hv hw => exact octets hw hv
  | @list xs _ ih =>
    have h := @list (xs.map Prod.swap) (List.forall_mem_map.2 ih)
    simpa [Function.comp_def] using h
  | @tuple xs _ ih =>
    have h := @tuple (xs.map Prod.swap) (List.forall_mem_map.2 ih)
    simpa [Function.comp_def] using h
  | @set vs ws xs hv hw _ ih =>
    refine @set _ _ (xs.map Prod.swap) ?_ ?_ (List.forall_mem_map.2 ih)
    · simpa [Function.comp_def] using hw
    · simpa [Function.comp_def] using hv
  | @map vs ws es hv hw _ _ ihk ihv =>
    refine @map _ _ (es.map Prod.swap) ?_ ?_ (List.forall_mem_map.2 ihk) (List.forall_mem_map.2 ihv)
    · simpa [Function.comp_def] using hw
    · simpa [Function.comp_def] using hv
  | tagged _ ih => exact tagged ih
  | @record type xs ht hn _ ih =>
    have h := @record _ (xs.map Prod.swap) ht
      (List.forall_mem_map.2 fun x hx => (hn x hx).symm) (List.forall_mem_map.2 ih)
    simpa [Function.comp_def] using h
  | @declared type xs hn _ ih =>
    have h := @declared type (xs.map Prod.swap)
      (List.forall_mem_map.2 fun x hx => (hn x hx).symm) (List.forall_mem_map.2 ih)
    simpa [Function.comp_def] using h

/-! ### What a value of a known shape is alike to -/

section

variable {w : Value}

theorem null_left (h : Alike .null w) : w = .null := by
  cases h with
  | refl => rfl
  | number hv => cases hv
  | octets hv => cases hv

theorem text_left {s : String} (h : Alike (.text s) w) : w = .text s := by
  cases h with
  | refl => rfl
  | number hv => cases hv
  | octets hv => cases hv

theorem number_left {v : Value} {n : Int} (h : Alike v w) (hv : v.number? = some n) :
    w.number? = some n := by
  cases h with
  | refl => exact hv
  | number hv' hw => rwa [← hv, hv']
  | octets hv' => cases v <;> simp_all [number?, octets?]
  | _ => cases hv

theorem octets_left {v : Value} {o : Octets} (h : Alike v w) (hv : v.octets? = some o) :
    w.octets? = some o := by
  cases h with
  | refl => exact hv
  | number hv' hw => cases v <;> simp_all [number?, octets?]
  | octets hv' hw => rwa [← hv, hv']
  | record ht =>
    rw [octets?_record ht] at hv
    cases hv
  | _ => cases hv

theorem list_left {vs : List Value} (h : Alike (.list vs) w) :
    ∃ xs : List (Value × Value), vs = xs.map Prod.fst ∧ w = .list (xs.map Prod.snd) ∧
      ∀ x ∈ xs, Alike x.1 x.2 := by
  cases h with
  | refl =>
    exact ⟨vs.map fun v => (v, v), by simp [Function.comp_def], by simp [Function.comp_def],
      List.forall_mem_map.2 fun v _ => refl v⟩
  | number hv => cases hv
  | octets hv => cases hv
  | list hx => exact ⟨_, rfl, rfl, hx⟩

theorem tuple_left {vs : List Value} (h : Alike (.tuple vs) w) :
    ∃ xs : List (Value × Value), vs = xs.map Prod.fst ∧ w = .tuple (xs.map Prod.snd) ∧
      ∀ x ∈ xs, Alike x.1 x.2 := by
  cases h with
  | refl =>
    exact ⟨vs.map fun v => (v, v), by simp [Function.comp_def], by simp [Function.comp_def],
      List.forall_mem_map.2 fun v _ => refl v⟩
  | number hv => cases hv
  | octets hv => cases hv
  | tuple hx => exact ⟨_, rfl, rfl, hx⟩

theorem set_left {vs : List Value} (h : Alike (.set vs) w) :
    ∃ (ws : List Value) (xs : List (Value × Value)), w = .set ws ∧ vs.Perm (xs.map Prod.fst) ∧
      ws.Perm (xs.map Prod.snd) ∧ ∀ x ∈ xs, Alike x.1 x.2 := by
  cases h with
  | refl =>
    exact ⟨vs, vs.map fun v => (v, v), rfl, by simp [Function.comp_def], by simp [Function.comp_def],
      List.forall_mem_map.2 fun v _ => refl v⟩
  | number hv => cases hv
  | octets hv => cases hv
  | set hv hw hx => exact ⟨_, _, rfl, hv, hw, hx⟩

theorem map_left {vs : List (Value × Value)} (h : Alike (.map vs) w) :
    ∃ (ws : List (Value × Value)) (es : List ((Value × Value) × (Value × Value))), w = .map ws ∧
      vs.Perm (es.map Prod.fst) ∧ ws.Perm (es.map Prod.snd) ∧
      ∀ e ∈ es, Alike e.1.1 e.2.1 ∧ Alike e.1.2 e.2.2 := by
  cases h with
  | refl =>
    exact ⟨vs, vs.map fun v => (v, v), rfl, by simp [Function.comp_def], by simp [Function.comp_def],
      List.forall_mem_map.2 fun v _ => ⟨refl _, refl _⟩⟩
  | number hv => cases hv
  | octets hv => cases hv
  | map hv hw hk hx => exact ⟨_, _, rfl, hv, hw, fun e he => ⟨hk e he, hx e he⟩⟩

theorem tagged_left {variant : String} {v : Value} (h : Alike (.tagged variant v) w) :
    ∃ x, w = .tagged variant x ∧ Alike v x := by
  cases h with
  | refl => exact ⟨v, rfl, refl v⟩
  | number hv => cases hv
  | octets hv => cases hv
  | tagged h => exact ⟨_, rfl, h⟩

theorem record_left {type : String} (ht : type ≠ "Lib") {fields : List (String × Value)}
    (h : Alike (.record type fields) w) :
    ∃ xs : List ((String × Value) × (String × Value)), fields = xs.map Prod.fst ∧
      w = .record type (xs.map Prod.snd) ∧ ∀ x ∈ xs, x.1.1 = x.2.1 ∧ Alike x.1.2 x.2.2 := by
  cases h with
  | refl =>
    exact ⟨fields.map fun f => (f, f), by simp [Function.comp_def], by simp [Function.comp_def],
      List.forall_mem_map.2 fun f _ => ⟨rfl, refl _⟩⟩
  | number hv => cases hv
  | octets hv =>
    rw [octets?_record ht] at hv
    cases hv
  | record _ hn hx => exact ⟨_, rfl, rfl, fun x h => ⟨hn x h, hx x h⟩⟩

theorem declared_left {type : RecordType} {fields : List (String × Value)}
    (h : Alike (.declared type fields) w) :
    ∃ xs : List ((String × Value) × (String × Value)), fields = xs.map Prod.fst ∧
      w = .declared type (xs.map Prod.snd) ∧ ∀ x ∈ xs, x.1.1 = x.2.1 ∧ Alike x.1.2 x.2.2 := by
  cases h with
  | refl =>
    exact ⟨fields.map fun f => (f, f), by simp [Function.comp_def], by simp [Function.comp_def],
      List.forall_mem_map.2 fun f _ => ⟨rfl, refl _⟩⟩
  | number hv => cases hv
  | octets hv => cases hv
  | declared hn hx => exact ⟨_, rfl, rfl, fun x h => ⟨hn x h, hx x h⟩⟩

end

/-- Two relations between the items of lists of the same length compose. -/
theorem exists_compose {α β γ : Type} {R : α → β → Prop} {S : β → γ → Prop} {xs : List (α × β)}
    {ys : List (β × γ)} (h : xs.map Prod.snd = ys.map Prod.fst) (hx : ∀ x ∈ xs, R x.1 x.2)
    (hy : ∀ y ∈ ys, S y.1 y.2) :
    ∃ zs : List (α × γ), zs.map Prod.fst = xs.map Prod.fst ∧ zs.map Prod.snd = ys.map Prod.snd ∧
      ∀ z ∈ zs, ∃ b, R z.1 b ∧ S b z.2 := by
  induction xs generalizing ys with
  | nil =>
    rw [List.map_nil, eq_comm, List.map_eq_nil_iff] at h
    subst h
    exact ⟨[], rfl, rfl, nofun⟩
  | cons x xs ih =>
    obtain ⟨y, ys, rfl, hxy, h⟩ := List.map_eq_cons_iff.1 h.symm
    rw [List.forall_mem_cons] at hx hy
    obtain ⟨zs, hfst, hsnd, hz⟩ := ih h.symm hx.2 hy.2
    refine ⟨(x.1, y.2) :: zs, by simp [hfst], by simp [hsnd], List.forall_mem_cons.2 ⟨?_, hz⟩⟩
    exact ⟨x.2, hx.1, hxy ▸ hy.1⟩

/-- Two relations between the items of lists compose when the lists in between are rearrangements of
each other. -/
theorem exists_compose_perm {α β γ : Type} {R : α → β → Prop} {S : β → γ → Prop}
    {xs : List (α × β)} {ys : List (β × γ)} (h : (xs.map Prod.snd).Perm (ys.map Prod.fst))
    (hx : ∀ x ∈ xs, R x.1 x.2) (hy : ∀ y ∈ ys, S y.1 y.2) :
    ∃ zs : List (α × γ), (zs.map Prod.fst).Perm (xs.map Prod.fst) ∧
      (zs.map Prod.snd).Perm (ys.map Prod.snd) ∧ ∀ z ∈ zs, ∃ b, R z.1 b ∧ S b z.2 := by
  obtain ⟨ys', hys, hmap⟩ := exists_perm_of_perm_map h
  obtain ⟨zs, hfst, hsnd, hz⟩ := exists_compose hmap hx fun y h => hy y (hys.mem_iff.1 h)
  exact ⟨zs, .of_eq hfst, hsnd ▸ hys.map _, hz⟩

/-- Values that are alike to one value are alike. -/
theorem trans {u v w : Value} (h : Alike u v) (h' : Alike v w) : Alike u w := by
  induction h generalizing w with
  | refl v => exact h'
  | number hu hv => exact number hu (h'.number_left hv)
  | octets hu hv => exact octets hu (h'.octets_left hv)
  | @list xs _ ih =>
    obtain ⟨ys, hys, rfl, hy⟩ := h'.list_left
    obtain ⟨zs, hfst, hsnd, hz⟩ := exists_compose (R := fun a b => ∀ w, Alike b w → Alike a w) hys
      (fun x hx w => ih x hx) hy
    rw [← hfst, ← hsnd]
    exact list fun z h => (hz z h).elim fun b hb => hb.1 _ hb.2
  | @tuple xs _ ih =>
    obtain ⟨ys, hys, rfl, hy⟩ := h'.tuple_left
    obtain ⟨zs, hfst, hsnd, hz⟩ := exists_compose (R := fun a b => ∀ w, Alike b w → Alike a w) hys
      (fun x hx w => ih x hx) hy
    rw [← hfst, ← hsnd]
    exact tuple fun z h => (hz z h).elim fun b hb => hb.1 _ hb.2
  | @set us vs xs hu hv _ ih =>
    obtain ⟨ws, ys, rfl, hv', hw, hy⟩ := h'.set_left
    obtain ⟨zs, hfst, hsnd, hz⟩ := exists_compose_perm
      (R := fun a b => ∀ w, Alike b w → Alike a w) (hv.symm.trans hv') (fun x hx w => ih x hx) hy
    exact set (hu.trans hfst.symm) (hw.trans hsnd.symm)
      fun z h => (hz z h).elim fun b hb => hb.1 _ hb.2
  | @map us vs es hu hv _ _ ihk ihv =>
    obtain ⟨ws, fs, rfl, hv', hw, hf⟩ := h'.map_left
    obtain ⟨zs, hfst, hsnd, hz⟩ := exists_compose_perm
      (R := fun a b => (∀ w, Alike b.1 w → Alike a.1 w) ∧ ∀ w, Alike b.2 w → Alike a.2 w)
      (S := fun a b => Alike a.1 b.1 ∧ Alike a.2 b.2) (hv.symm.trans hv')
      (fun e he => ⟨fun w => ihk e he, fun w => ihv e he⟩) hf
    exact map (hu.trans hfst.symm) (hw.trans hsnd.symm)
      (fun z h => (hz z h).elim fun b hb => hb.1.1 _ hb.2.1)
      fun z h => (hz z h).elim fun b hb => hb.1.2 _ hb.2.2
  | tagged _ ih =>
    obtain ⟨x, rfl, hx⟩ := h'.tagged_left
    exact tagged (ih hx)
  | @record type xs ht hn _ ih =>
    obtain ⟨ys, hys, rfl, hy⟩ := h'.record_left ht
    obtain ⟨zs, hfst, hsnd, hz⟩ := exists_compose
      (R := fun a b => a.1 = b.1 ∧ ∀ w, Alike b.2 w → Alike a.2 w)
      (S := fun a b => a.1 = b.1 ∧ Alike a.2 b.2) hys
      (fun x hx => ⟨hn x hx, fun w => ih x hx⟩) hy
    rw [← hfst, ← hsnd]
    exact record ht (fun z h => (hz z h).elim fun b hb => hb.1.1.trans hb.2.1)
      fun z h => (hz z h).elim fun b hb => hb.1.2 _ hb.2.2
  | @declared type xs hn _ ih =>
    obtain ⟨ys, hys, rfl, hy⟩ := h'.declared_left
    obtain ⟨zs, hfst, hsnd, hz⟩ := exists_compose
      (R := fun a b => a.1 = b.1 ∧ ∀ w, Alike b.2 w → Alike a.2 w)
      (S := fun a b => a.1 = b.1 ∧ Alike a.2 b.2) hys
      (fun x hx => ⟨hn x hx, fun w => ih x hx⟩) hy
    rw [← hfst, ← hsnd]
    exact declared (fun z h => (hz z h).elim fun b hb => hb.1.1.trans hb.2.1)
      fun z h => (hz z h).elim fun b hb => hb.1.2 _ hb.2.2

/-! ### Alike images -/

section

variable {α : Type}

/-- Texts are alike when they are equal. -/
@[simp] theorem text_iff {s t : String} : Alike (.text s) (.text t) ↔ s = t := by
  constructor
  · intro h
    exact (Value.text.inj h.text_left).symm
  · rintro rfl
    exact refl _

/-- Integers are alike when they are equal. -/
@[simp] theorem int_iff {m n : Int} : Alike (.int m) (.int n) ↔ m = n := by
  constructor
  · intro h
    exact (Option.some.inj (h.number_left rfl)).symm
  · rintro rfl
    exact refl _

/-- Natural numbers are alike when they are equal. -/
@[simp] theorem ofNat_iff {m n : Nat} : Alike (.ofNat m) (.ofNat n) ↔ m = n := by
  rw [ofNat, ofNat, int_iff, Int.ofNat_inj]

/-- Identifiers of one kind are alike when they are equal. -/
@[simp] theorem id_iff {kind : IdKind} {x y : Id kind} : Alike (.id kind x) (.id kind y) ↔ x = y := by
  constructor
  · intro h
    exact Id.ext (Option.some.inj (h.octets_left rfl)).symm
  · rintro rfl
    exact refl _

/-- Fields of the same names with alike values. -/
def Fields : List (String × Value) → List (String × Value) → Prop
  | [], [] => True
  | (name, v) :: vs, (name', w) :: ws => name = name' ∧ Alike v w ∧ Fields vs ws
  | _, _ => False

/-- Fields are alike when they are one by one. -/
theorem fields_iff {vs ws : List (String × Value)} :
    Fields vs ws ↔ ∃ xs : List ((String × Value) × (String × Value)), vs = xs.map Prod.fst ∧
      ws = xs.map Prod.snd ∧ ∀ x ∈ xs, x.1.1 = x.2.1 ∧ Alike x.1.2 x.2.2 := by
  induction vs generalizing ws with
  | nil =>
    constructor
    · intro h
      cases ws with
      | nil => exact ⟨[], rfl, rfl, nofun⟩
      | cons => exact h.elim
    · rintro ⟨xs, hv, rfl, -⟩
      rw [List.map_eq_nil_iff.1 hv.symm]
      trivial
  | cons v vs ih =>
    constructor
    · intro h
      cases ws with
      | nil => exact h.elim
      | cons w ws =>
        obtain ⟨hname, hvw, hws⟩ := h
        obtain ⟨xs, rfl, rfl, hxs⟩ := ih.1 hws
        exact ⟨(v, w) :: xs, rfl, rfl, List.forall_mem_cons.2 ⟨⟨hname, hvw⟩, hxs⟩⟩
    · rintro ⟨xs, hv, rfl, hxs⟩
      obtain ⟨x, xs, rfl, rfl, rfl⟩ := List.map_eq_cons_iff.1 hv.symm
      rw [List.forall_mem_cons] at hxs
      exact ⟨hxs.1.1, hxs.1.2, ih.2 ⟨xs, rfl, rfl, hxs.2⟩⟩

/-- Alike fields have alike values under one name. -/
theorem Fields.exists_lookup {vs ws : List (String × Value)} (h : Fields vs ws) {name : String}
    {v : Value} (hv : vs.lookup name = some v) : ∃ w, ws.lookup name = some w ∧ Alike v w := by
  obtain ⟨xs, rfl, rfl, hxs⟩ := fields_iff.1 h
  clear h
  induction xs with
  | nil => cases hv
  | cons x xs ih =>
    rw [List.forall_mem_cons] at hxs
    rw [List.map_cons, List.lookup_cons] at hv ⊢
    rw [← hxs.1.1]
    cases hname : name == x.1.1 with
    | true =>
      rw [hname] at hv
      cases hv
      exact ⟨_, rfl, hxs.1.2⟩
    | false =>
      rw [hname] at hv
      exact ih hv hxs.2

/-- Records are alike when they are of one type and have alike fields. -/
theorem record_iff {type type' : String} (ht : type ≠ "Lib") {vs ws : List (String × Value)} :
    Alike (.record type vs) (.record type' ws) ↔ type = type' ∧ Fields vs ws := by
  rw [fields_iff]
  constructor
  · intro h
    obtain ⟨xs, rfl, hw, hxs⟩ := h.record_left ht
    obtain ⟨rfl, rfl⟩ := Value.record.inj hw
    exact ⟨rfl, xs, rfl, rfl, hxs⟩
  · rintro ⟨rfl, xs, rfl, rfl, hxs⟩
    exact record ht (fun x hx => (hxs x hx).1) fun x hx => (hxs x hx).2

/-- Items of two lists are paired as their images are. -/
theorem exists_pairs {β γ : Type} {R : γ → γ → Prop} {f : α → γ} {g : β → γ} {as : List α}
    {bs : List β} {xs : List (γ × γ)} (hx : ∀ x ∈ xs, R x.1 x.2) (has : as.map f = xs.map Prod.fst)
    (hbs : bs.map g = xs.map Prod.snd) :
    ∃ ps : List (α × β), as = ps.map Prod.fst ∧ bs = ps.map Prod.snd ∧
      ∀ q ∈ ps, R (f q.1) (g q.2) := by
  induction xs generalizing as bs with
  | nil => exact ⟨[], List.map_eq_nil_iff.1 has, List.map_eq_nil_iff.1 hbs, nofun⟩
  | cons x xs ih =>
    obtain ⟨a, as, rfl, ha, has⟩ := List.map_eq_cons_iff.1 has
    obtain ⟨b, bs, rfl, hb, hbs⟩ := List.map_eq_cons_iff.1 hbs
    rw [List.forall_mem_cons, ← ha, ← hb] at hx
    obtain ⟨ps, rfl, rfl, hps⟩ := ih hx.2 has hbs
    exact ⟨(a, b) :: ps, rfl, rfl, List.forall_mem_cons.2 ⟨hx.1, hps⟩⟩

/-- Items are equal when their images are related one by one, and only equal items have related
images. -/
theorem eq_of_map_eq {β : Type} {R : β → β → Prop} {f : α → β}
    (hf : ∀ a b, R (f a) (f b) → a = b) {as bs : List α} {xs : List (β × β)}
    (hx : ∀ x ∈ xs, R x.1 x.2) (has : as.map f = xs.map Prod.fst)
    (hbs : bs.map f = xs.map Prod.snd) : as = bs := by
  obtain ⟨ps, rfl, rfl, hps⟩ := exists_pairs hx has hbs
  exact List.map_congr_left fun q hq => hf _ _ (hps q hq)

/-- Sequences of images are alike only when the items are paired one by one. -/
theorem exists_pairs_of_tuple {β : Type} {f : α → Value} {g : β → Value} {as : List α}
    {bs : List β} (h : Alike (.tuple (as.map f)) (.tuple (bs.map g))) :
    ∃ ps : List (α × β), as = ps.map Prod.fst ∧ bs = ps.map Prod.snd ∧
      ∀ q ∈ ps, Alike (f q.1) (g q.2) := by
  obtain ⟨xs, has, hbs, hx⟩ := h.tuple_left
  exact exists_pairs hx has (Value.tuple.inj hbs)

/-- Mappings of images are alike only when the entries are paired in some order. -/
theorem exists_pairs_of_map {β : Type} {f f' : α → Value} {g g' : β → Value} {as : List α}
    {bs : List β}
    (h : Alike (.map (as.map fun a => (f a, f' a))) (.map (bs.map fun b => (g b, g' b)))) :
    ∃ ps : List (α × β), as = ps.map Prod.fst ∧ bs.Perm (ps.map Prod.snd) ∧
      ∀ q ∈ ps, Alike (f q.1) (g q.2) ∧ Alike (f' q.1) (g' q.2) := by
  obtain ⟨ws, es, hws, hfst, hsnd, hes⟩ := h.map_left
  rw [← Value.map.inj hws] at hsnd
  obtain ⟨es', hes', hmapa⟩ := exists_perm_of_perm_map hfst
  obtain ⟨bs', hbs', hmapb⟩ := exists_perm_of_perm_map ((hes'.map Prod.snd).trans hsnd.symm)
  obtain ⟨ps, hps, rfl, hR⟩ := exists_pairs (g := fun b => (g b, g' b))
    (R := fun a b : Value × Value => Alike a.1 b.1 ∧ Alike a.2 b.2)
    (fun e he => hes e (hes'.mem_iff.1 he)) hmapa hmapb.symm
  exact ⟨ps, hps, hbs'.symm, hR⟩

/-- Sequences of images are alike only when the items are equal. -/
theorem eq_of_tuple {f : α → Value} (hf : ∀ a b, Alike (f a) (f b) → a = b) {as bs : List α}
    (h : Alike (.tuple (as.map f)) (.tuple (bs.map f))) : as = bs := by
  obtain ⟨xs, has, hbs, hx⟩ := h.tuple_left
  exact eq_of_map_eq hf hx has (Value.tuple.inj hbs)

/-- Mappings of images are alike only when the entries are rearrangements of each other. -/
theorem perm_of_map {f g : α → Value}
    (h : ∀ a b, Alike (f a) (f b) → Alike (g a) (g b) → a = b) {as bs : List α}
    (hab : Alike (.map (as.map fun a => (f a, g a))) (.map (bs.map fun b => (f b, g b)))) :
    as.Perm bs := by
  obtain ⟨ps, rfl, hbs, hps⟩ := exists_pairs_of_map hab
  have heq : ps.map Prod.fst = ps.map Prod.snd :=
    List.map_congr_left fun q hq => h _ _ (hps q hq).1 (hps q hq).2
  exact heq ▸ hbs.symm

end

end Alike

end Value

end StrictContract
