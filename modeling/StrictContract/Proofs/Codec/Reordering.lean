import StrictContract.Proofs.Codec.Canonical

/-! # Reordering — the order in which entries are supplied

The elements of a set and the entries of a map are supplied in some order, which the canonical bytes
must not depend on. What counts as a set or a map is said by the codec, not by the value: the same
list is ordered data under one codec and an order of supply under another. So values are
**reordered** with respect to a codec: they differ at most in the order in which they supply the sets
and maps inside the codec. Reordered values are written as the same bytes, or neither is written. -/

namespace StrictContract

/-! ## Items written in any order -/

section

variable {α β : Type} {R : α → β → Prop} {vs ws : List α} {xs : List (α × α)} {os : List β}

/-- The items of a list are **carried** to results, which stand in any order. -/
def Carried (R : α → β → Prop) (vs : List α) (os : List β) : Prop :=
  ∃ es : List (α × β), vs = es.map Prod.fst ∧ os.Perm (es.map Prod.snd) ∧ ∀ e ∈ es, R e.1 e.2

/-- Items that are paired with others, in any order, are carried to the same results as these, if
both items of every pair are. -/
theorem Carried.of_paired (hvs : vs.Perm (xs.map Prod.fst)) (hws : ws.Perm (xs.map Prod.snd))
    (h : ∀ x ∈ xs, ∀ o, R x.1 o → R x.2 o) (hv : Carried R vs os) : Carried R ws os := by
  obtain ⟨es, rfl, hos, hes⟩ := hv
  -- every item that is carried has a partner on the other side, which is carried there, too
  have hmiddle : ((xs.map Prod.swap).map Prod.snd).Perm (es.map Prod.fst) := by
    rw [List.map_map]
    exact hvs.symm
  obtain ⟨zs, hfst, hsnd, hzs⟩ := Value.Alike.exists_compose_perm
    (R := fun w v => ∀ o, R v o → R w o) hmiddle (List.forall_mem_map.2 h) hes
  have hpartners : ws.Perm (zs.map Prod.fst) := by
    rw [List.map_map] at hfst
    exact hws.trans hfst.symm
  obtain ⟨zs', hzs', rfl⟩ := exists_perm_of_perm_map hpartners
  refine ⟨zs', rfl, (hos.trans hsnd.symm).trans (hzs'.symm.map _), fun z hz => ?_⟩
  obtain ⟨v, hvw, hv⟩ := hzs z (hzs'.mem_iff.1 hz)
  exact hvw _ hv

/-- Paired items are carried to the same results. -/
theorem carried_iff_of_paired (hvs : vs.Perm (xs.map Prod.fst)) (hws : ws.Perm (xs.map Prod.snd))
    (h : ∀ x ∈ xs, ∀ o, R x.1 o ↔ R x.2 o) : Carried R vs os ↔ Carried R ws os := by
  have hback : ∀ x ∈ xs.map Prod.swap, ∀ o, R x.1 o → R x.2 o :=
    List.forall_mem_map.2 fun x hx o => (h x hx o).2
  refine ⟨.of_paired hvs hws fun x hx o => (h x hx o).1, .of_paired ?_ ?_ hback⟩
  · rwa [List.map_map]
  · rwa [List.map_map]

end

namespace Codec

/-! ## Writing by parts -/

section

variable {item key value : Codec} {b : Bounds} {label : Option String} {v : Value} {p : Octets}

/-- A set is written as what its elements are carried to, in ascending order. -/
theorem write_set_iff_carried {form : SetForm} :
    (set item b form label).write v = .ok p ↔ ∃ vs os, v.items? = some vs ∧
      Carried (fun x o => item.write x = .ok o) vs os ∧ os.Pairwise (· < ·) ∧
      b.admits os.length = true ∧ p = b.lengthPrefix os.length ++ os.flatten := by
  rw [write_set_eq_ok]
  constructor
  · rintro ⟨xs, ys, hv, hxs, hperm, hlt, hn, rfl⟩
    refine ⟨_, ys.map Prod.snd, hv, ⟨xs, rfl, hperm.map _, hxs⟩, hlt, ?_, ?_⟩
    · rwa [List.length_map]
    · rw [List.length_map]
  · rintro ⟨_, _, hv, ⟨xs, rfl, hperm, hxs⟩, hlt, hn, rfl⟩
    obtain ⟨ys, hys, rfl⟩ := exists_perm_of_perm_map hperm
    rw [List.length_map] at hn ⊢
    exact ⟨xs, ys, hv, hxs, hys, hlt, hn, rfl⟩

/-- The bytes of an entry of a map: those of its key and those of its value. -/
def WritesEntry (key value : Codec) (e : Value) (o : Octets × Octets) : Prop :=
  ∃ k x, e.unpair = .ok (k, x) ∧ key.write k = .ok o.1 ∧ value.write x = .ok o.2

/-- A map is written as what its entries are carried to, in ascending order of the keys. -/
theorem write_map_iff_carried {form : MapForm} :
    (map key value b form label).write v = .ok p ↔ ∃ vs os, v.mapItems form = .ok vs ∧
      Carried (WritesEntry key value) vs os ∧ (os.map Prod.fst).Pairwise (· < ·) ∧
      b.admits os.length = true ∧
      p = b.lengthPrefix os.length ++ (os.map fun o => o.1 ++ o.2).flatten := by
  rw [write_map_eq_ok]
  constructor
  · rintro ⟨es, fs, hv, hes, hperm, hlt, hn, rfl⟩
    refine ⟨_, fs.map fun f => (f.1.2, f.2.2), hv,
      ⟨es.map fun e => (e.1, (e.2.1.2, e.2.2.2)), ?_, ?_, ?_⟩, ?_, ?_, ?_⟩
    · rw [List.map_map]
      rfl
    · rw [List.map_map]
      have hmapped := hperm.map fun f => (f.1.2, f.2.2)
      rwa [List.map_map] at hmapped
    · exact List.forall_mem_map.2 fun e he => ⟨_, _, hes e he⟩
    · rwa [List.map_map]
    · rwa [List.length_map]
    · rw [List.length_map, List.map_map]
      rfl
  · rintro ⟨_, _, hv, ⟨es, rfl, hperm, hes⟩, hlt, hn, rfl⟩
    -- the parts of every entry, each with its bytes
    obtain ⟨gs, rfl, hgs⟩ := exists_eq_map
      (f := fun g : Value × (Value × Octets) × (Value × Octets) => (g.1, (g.2.1.2, g.2.2.2)))
      (P := fun g => g.1.unpair = .ok (g.2.1.1, g.2.2.1) ∧ key.write g.2.1.1 = .ok g.2.1.2 ∧
        value.write g.2.2.1 = .ok g.2.2.2)
      fun e he => by
        obtain ⟨k, x, hpair, hkey, hvalue⟩ := hes e he
        exact ⟨(e.1, (k, e.2.1), (x, e.2.2)), rfl, hpair, hkey, hvalue⟩
    rw [List.map_map] at hperm
    obtain ⟨fs, hfs, rfl⟩ := exists_perm_of_perm_map hperm
    refine ⟨gs, fs.map Prod.snd, ?_, hgs, hfs.map _, ?_, ?_, ?_⟩
    · rw [List.map_map] at hv
      exact hv
    · rw [List.map_map] at hlt ⊢
      exact hlt
    · rwa [List.length_map] at hn ⊢
    · rw [List.length_map, List.length_map, List.map_map, List.map_map]
      rfl

/-- A list is written when its number of items is within the bounds and its items are written. -/
theorem write_list_iff_mapM :
    (list item b label).write v = .ok p ↔ ∃ vs parts, v.items? = some vs ∧
      b.admits vs.length = true ∧ vs.mapM (write item) = .ok parts ∧
      p = b.lengthPrefix vs.length ++ parts.flatten := by
  rw [write_list_eq_ok]
  constructor
  · rintro ⟨xs, hv, hn, hxs, rfl⟩
    refine ⟨_, _, hv, ?_, mapM_eq_ok.2 ⟨xs, rfl, rfl, hxs⟩, ?_⟩
    · rwa [List.length_map]
    · rw [List.length_map]
  · rintro ⟨_, _, hv, hn, h, rfl⟩
    obtain ⟨xs, rfl, rfl, hxs⟩ := mapM_eq_ok.1 h
    rw [List.length_map] at hn ⊢
    exact ⟨xs, hv, hn, hxs, rfl⟩

end

/-! ## Reordered values -/

/-- `c.Reordered v w`: with respect to the codec, the two values differ at most in the order in which
they supply the entries of sets and maps. -/
inductive Reordered : Codec → Value → Value → Prop
  | refl (c : Codec) (v : Value) : Reordered c v v
  | list {item : Codec} {b : Bounds} {label : Option String} {v w : Value}
      {xs : List (Value × Value)} (hv : v.items? = some (xs.map Prod.fst))
      (hw : w.items? = some (xs.map Prod.snd)) (hxs : ∀ x ∈ xs, Reordered item x.1 x.2) :
      Reordered (list item b label) v w
  | array {item : Codec} {count : Nat} {v w : Value} {xs : List (Value × Value)}
      (hv : v.items? = some (xs.map Prod.fst)) (hw : w.items? = some (xs.map Prod.snd))
      (hxs : ∀ x ∈ xs, Reordered item x.1 x.2) : Reordered (array item count) v w
  | tuple {items : List Codec} {v w : Value} {xs : List (Value × Value)}
      (hv : v.items? = some (xs.map Prod.fst)) (hw : w.items? = some (xs.map Prod.snd))
      (hxs : ∀ y ∈ items.zip xs, Reordered y.1 y.2.1 y.2.2) : Reordered (tuple items) v w
  /-- Elements come in any order. -/
  | set {item : Codec} {b : Bounds} {form : SetForm} {label : Option String} {v w : Value}
      {vs ws : List Value} {xs : List (Value × Value)} (hv : v.items? = some vs)
      (hw : w.items? = some ws) (hvs : vs.Perm (xs.map Prod.fst)) (hws : ws.Perm (xs.map Prod.snd))
      (hxs : ∀ x ∈ xs, Reordered item x.1 x.2) : Reordered (set item b form label) v w
  /-- Entries come in any order; what is no pair on one side is none on the other. -/
  | map {key value : Codec} {b : Bounds} {form : MapForm} {label : Option String} {v w : Value}
      {vs ws : List Value} {xs : List (Value × Value)} (hv : v.mapItems form = .ok vs)
      (hw : w.mapItems form = .ok ws) (hvs : vs.Perm (xs.map Prod.fst))
      (hws : ws.Perm (xs.map Prod.snd))
      (hpairs : ∀ x ∈ xs, (∃ e, x.1.unpair = .ok e) ↔ ∃ e, x.2.unpair = .ok e)
      (hkeys : ∀ x ∈ xs, ∀ d e, x.1.unpair = .ok d → x.2.unpair = .ok e → Reordered key d.1 e.1)
      (hvalues : ∀ x ∈ xs, ∀ d e, x.1.unpair = .ok d → x.2.unpair = .ok e →
        Reordered value d.2 e.2) :
      Reordered (map key value b form label) v w
  | some {inner : Codec} {v w : Value} (hv : v ≠ .null) (hw : w ≠ .null) (h : Reordered inner v w) :
      Reordered (option inner) v w
  /-- Fields are asked for by name; what has no such field on one side has none on the other. -/
  | struct {name : String} {fields : List (String × Codec)} {form : StructForm} {wrapped : Bool}
      {v w : Value} (hv : (wrapped && !(struct name fields form wrapped).accepts v) = false)
      (hw : (wrapped && !(struct name fields form wrapped).accepts w) = false)
      (hpresent : ∀ f ∈ fields, (∃ x, v.field f.1 = .ok x) ↔ ∃ x, w.field f.1 = .ok x)
      (hfields : ∀ f ∈ fields, ∀ x y, v.field f.1 = .ok x → w.field f.1 = .ok y →
        Reordered f.2 x y) :
      Reordered (struct name fields form wrapped) v w
  /-- Both values stand for the only field. -/
  | bare {name : String} {f : String × Codec} {rest : List (String × Codec)} {form : StructForm}
      {v w : Value} (hv : (struct name (f :: rest) form true).accepts v = false)
      (hw : (struct name (f :: rest) form true).accepts w = false) (h : Reordered f.2 v w) :
      Reordered (struct name (f :: rest) form true) v w
  | tagged {name : String} {variants : List (Nat × String × Codec)} {variant : String} {v w : Value}
      (h : ∀ x, (variants.find? fun x => x.2.1 = variant) = some x → Reordered x.2.2 v w) :
      Reordered (union name variants) (.tagged variant v) (.tagged variant w)
  | accepted {name : String} {variants : List (Nat × String × Codec)} {v w : Value}
      (hv : ∀ variant x, v ≠ .tagged variant x) (hw : ∀ variant x, w ≠ .tagged variant x)
      (hsame : (variants.find? fun x => x.2.2.accepts v) = variants.find? fun x => x.2.2.accepts w)
      (h : ∀ x, (variants.find? fun x => x.2.2.accepts v) = some x → Reordered x.2.2 v w) :
      Reordered (union name variants) v w

namespace Reordered

variable {c : Codec} {v w : Value}

/-- Entries of which keys and values are written alike are written alike. -/
theorem writesEntry_iff {key value : Codec}
    (hpairs : (∃ e, v.unpair = .ok e) ↔ ∃ e, w.unpair = .ok e)
    (hkeys : ∀ d e, v.unpair = .ok d → w.unpair = .ok e →
      ∀ p, key.write d.1 = .ok p ↔ key.write e.1 = .ok p)
    (hvalues : ∀ d e, v.unpair = .ok d → w.unpair = .ok e →
      ∀ p, value.write d.2 = .ok p ↔ value.write e.2 = .ok p) (o : Octets × Octets) :
    WritesEntry key value v o ↔ WritesEntry key value w o := by
  constructor
  · rintro ⟨k, x, hv, hkey, hvalue⟩
    obtain ⟨e, hw⟩ := hpairs.1 ⟨_, hv⟩
    exact ⟨e.1, e.2, hw, (hkeys _ _ hv hw _).1 hkey, (hvalues _ _ hv hw _).1 hvalue⟩
  · rintro ⟨k, x, hw, hkey, hvalue⟩
    obtain ⟨d, hv⟩ := hpairs.2 ⟨_, hw⟩
    exact ⟨d.1, d.2, hv, (hkeys _ _ hv hw _).2 hkey, (hvalues _ _ hv hw _).2 hvalue⟩

/-- A field is written alike when it is present alike and its values are written alike. -/
theorem writeField_iff {name : String}
    (hpresent : (∃ x, v.field name = .ok x) ↔ ∃ x, w.field name = .ok x)
    (h : ∀ x y, v.field name = .ok x → w.field name = .ok y →
      ∀ p, c.write x = .ok p ↔ c.write y = .ok p) (p : Octets) :
    (do c.write (← v.field name)) = .ok p ↔ (do c.write (← w.field name)) = .ok p := by
  rw [bind_eq_ok, bind_eq_ok]
  constructor
  · rintro ⟨x, hx, hp⟩
    obtain ⟨y, hy⟩ := hpresent.1 ⟨x, hx⟩
    exact ⟨y, hy, (h x y hx hy p).1 hp⟩
  · rintro ⟨y, hy, hp⟩
    obtain ⟨x, hx⟩ := hpresent.2 ⟨y, hy⟩
    exact ⟨x, hx, (h x y hx hy p).2 hp⟩

/-- Reordered values are written as the same bytes, or neither is written. -/
theorem write_eq_ok (h : c.Reordered v w) (p : Octets) : c.write v = .ok p ↔ c.write w = .ok p := by
  -- each shape is written by its parts: those of sets and maps in any order, all others in place
  induction h generalizing p with
  | refl => rfl
  | list hv hw _ ih =>
    simp only [write_list_iff_mapM, hv, hw, Option.some.injEq, exists_and_left, exists_eq_left',
      List.length_map, mapM_map_congr ih]
  | array hv hw _ ih =>
    simp only [write_array_eq_ok, hv, hw, Option.some.injEq, exists_and_left, exists_eq_left',
      List.length_map, mapM_map_congr ih]
  | tuple hv hw _ ih =>
    simp only [write_tuple_eq_ok, hv, hw, Option.some.injEq, exists_eq_left', List.length_map,
      writeItems_congr ih]
  | @set item _ _ _ _ _ _ _ _ hv hw hvs hws _ ih =>
    have helements := fun os =>
      @carried_iff_of_paired _ _ (fun x o => item.write x = .ok o) _ _ _ os hvs hws ih
    simp only [write_set_iff_carried, hv, hw, Option.some.injEq, exists_and_left, exists_eq_left',
      helements]
  | map hv hw hvs hws hpairs _ _ ihkeys ihvalues =>
    have hentries := fun x hx => writesEntry_iff (hpairs x hx) (ihkeys x hx) (ihvalues x hx)
    simp only [write_map_iff_carried, hv, hw, Except.ok.injEq, exists_and_left, exists_eq_left',
      carried_iff_of_paired hvs hws hentries]
  | some hv hw _ ih => simp only [write_some_eq_ok hv, write_some_eq_ok hw, ih]
  | struct hv hw hpresent _ ih =>
    rw [write, write, hv, hw]
    exact writeFields_congr fun f hf => writeField_iff (hpresent f hf) (ih f hf)
  | bare hv hw _ ih =>
    rw [write, write, hv, hw]
    simp only [Bool.not_false, Bool.and_true, if_true, writeBare, inside_eq_ok]
    exact ih p
  | tagged _ ih =>
    rw [write, write, writeNamed_eq_ok, writeNamed_eq_ok]
    exact exists_congr fun x => exists_congr fun q => and_congr_right fun hx =>
      and_congr_left' (ih x hx q)
  | accepted hv hw hsame _ ih =>
    rw [write, write, writeAccepted_iff_find?, writeAccepted_iff_find?, ← hsame]
    · exact exists_congr fun x => exists_congr fun q => and_congr_right fun hx =>
        and_congr_left' (ih x hx q)
    · exact hw
    · exact hv

end Reordered

/-! ### Sets, maps and records -/

/-- Values that supply the same elements to a set are reordered. -/
theorem reordered_set_of_perm {item : Codec} {b : Bounds} {form : SetForm} {label : Option String}
    {v w : Value} {vs ws : List Value} (hv : v.items? = some vs) (hw : w.items? = some ws)
    (h : vs.Perm ws) : (set item b form label).Reordered v w := by
  refine @Reordered.set _ _ _ _ _ _ _ _ (ws.map fun x => (x, x)) hv hw ?_ ?_
    (List.forall_mem_map.2 fun x _ => .refl item x)
  · simpa [Function.comp_def] using h
  · simp [Function.comp_def]

/-- Mappings are reordered when their entries pair up, in any order, as reordered keys and values. -/
theorem reordered_map {key value : Codec} {b : Bounds} {form : MapForm} {label : Option String}
    {vs ws : List (Value × Value)} (es : List ((Value × Value) × (Value × Value)))
    (hvs : vs.Perm (es.map Prod.fst)) (hws : ws.Perm (es.map Prod.snd))
    (hkeys : ∀ e ∈ es, key.Reordered e.1.1 e.2.1) (hvalues : ∀ e ∈ es, value.Reordered e.1.2 e.2.2) :
    (map key value b form label).Reordered (.map vs) (.map ws) := by
  -- the items of a mapping are its entries as pairs, and pairs are taken apart again
  let pair : Value × Value → Value := fun e => .tuple [e.1, e.2]
  have hunpair : ∀ e : Value × Value, (pair e).unpair = .ok e := fun e => Value.unpair_tuple e.1 e.2
  have hpaired : ∀ {d e d' e' : Value × Value}, (pair d').unpair = .ok d → (pair e').unpair = .ok e →
      d' = d ∧ e' = e := by
    intro d e d' e' hd he
    rw [hunpair, Except.ok.injEq] at hd he
    exact ⟨hd, he⟩
  refine @Reordered.map _ _ _ _ _ _ _ (vs.map pair) (ws.map pair)
    (es.map fun e => (pair e.1, pair e.2)) rfl rfl ?_ ?_ ?_ ?_ ?_
  · rw [List.map_map]
    have hmapped := hvs.map pair
    rwa [List.map_map] at hmapped
  · rw [List.map_map]
    have hmapped := hws.map pair
    rwa [List.map_map] at hmapped
  · refine List.forall_mem_map.2 fun e _ => ?_
    exact ⟨fun _ => ⟨_, hunpair e.2⟩, fun _ => ⟨_, hunpair e.1⟩⟩
  · refine List.forall_mem_map.2 fun e he d d' hd hd' => ?_
    obtain ⟨rfl, rfl⟩ := hpaired hd hd'
    exact hkeys e he
  · refine List.forall_mem_map.2 fun e he d d' hd hd' => ?_
    obtain ⟨rfl, rfl⟩ := hpaired hd hd'
    exact hvalues e he

/-- Mappings with the same entries are reordered. -/
theorem reordered_map_of_perm {key value : Codec} {b : Bounds} {form : MapForm}
    {label : Option String} {vs ws : List (Value × Value)} (h : vs.Perm ws) :
    (map key value b form label).Reordered (.map vs) (.map ws) := by
  refine reordered_map (ws.map fun e => (e, e)) ?_ ?_
    (List.forall_mem_map.2 fun e _ => .refl key e.1)
    (List.forall_mem_map.2 fun e _ => .refl value e.2)
  · simpa [Function.comp_def] using h
  · simp [Function.comp_def]

/-- A codec accepts a record by its type alone. -/
theorem accepts_record (c : Codec) (type : String) (fields : List (String × Value)) :
    c.accepts (.record type fields) = c.accepts (.record type []) := by
  unfold accepts
  split <;> simp_all

/-- A record has its own fields, and beyond these what every record of its type has. -/
theorem field_record_eq (type : String) (fields : List (String × Value)) (name : String) :
    (Value.record type fields).field name =
      match fields.lookup name with
      | some x => .ok x
      | none => (Value.record type []).field name := by
  simp only [Value.field, Value.feature?, Value.part?]
  cases fields.lookup name <;> rfl

/-- Records of one type with the same field names are reordered when the fields are. -/
theorem reordered_record {name type : String} {fields : List (String × Codec)} {form : StructForm}
    {wrapped : Bool} {vs ws : List (String × Value)}
    (haccepts : (wrapped && !(struct name fields form wrapped).accepts (.record type [])) = false)
    (hnames : vs.map Prod.fst = ws.map Prod.fst)
    (h : ∀ f ∈ fields, ∀ x y, vs.lookup f.1 = some x → ws.lookup f.1 = some y → f.2.Reordered x y) :
    (struct name fields form wrapped).Reordered (.record type vs) (.record type ws) := by
  have hfield : ∀ (us : List (String × Value)) (field : String) (x : Value), us.lookup field = some x →
      (Value.record type us).field field = .ok x := by
    intro us field x hx
    rw [field_record_eq, hx]
  have hother : ∀ (us : List (String × Value)) (field : String), us.lookup field = none →
      (Value.record type us).field field = (Value.record type []).field field := by
    intro us field hnone
    rw [field_record_eq, hnone]
  -- a field is among the given ones on both sides, or on neither
  have hboth : ∀ field, (∃ x y, vs.lookup field = some x ∧ ws.lookup field = some y) ∨
      (vs.lookup field = none ∧ ws.lookup field = none) := by
    intro field
    have hsome : (vs.lookup field).isSome = (ws.lookup field).isSome := by
      rw [Bool.eq_iff_iff, isSome_lookup, isSome_lookup, hnames]
    cases hv : vs.lookup field with
    | none =>
      rw [hv] at hsome
      exact .inr ⟨rfl, Option.isNone_iff_eq_none.1 (Option.isSome_eq_false_iff.1 hsome.symm)⟩
    | some x =>
      rw [hv] at hsome
      obtain ⟨y, hy⟩ := Option.isSome_iff_exists.1 hsome.symm
      exact .inl ⟨x, y, rfl, hy⟩
  refine .struct ?_ ?_ (fun f _ => ?_) fun f hf x y hx hy => ?_
  · rwa [accepts_record]
  · rwa [accepts_record]
  · rcases hboth f.1 with ⟨x, y, hx, hy⟩ | ⟨hv, hw⟩
    · exact ⟨fun _ => ⟨y, hfield ws f.1 y hy⟩, fun _ => ⟨x, hfield vs f.1 x hx⟩⟩
    · rw [hother vs f.1 hv, hother ws f.1 hw]
  · rcases hboth f.1 with ⟨x', y', hx', hy'⟩ | ⟨hv, hw⟩
    · obtain rfl := Except.ok.inj ((hfield vs f.1 x' hx').symm.trans hx)
      obtain rfl := Except.ok.inj ((hfield ws f.1 y' hy').symm.trans hy)
      exact h f hf x' y' hx' hy'
    · rw [hother vs f.1 hv] at hx
      rw [hother ws f.1 hw, hx, Except.ok.injEq] at hy
      exact hy ▸ .refl _ x

/-- Fields of which every one is reordered with respect to the codec of its name. -/
def ReorderedFields :
    List (String × Codec) → List (String × Value) → List (String × Value) → Prop
  | [], [], [] => True
  | (name, c) :: fields, (x, v) :: vs, (y, w) :: ws =>
    x = name ∧ y = name ∧ Reordered c v w ∧ ReorderedFields fields vs ws
  | _, _, _ => False

/-- Reordered fields are those of the struct, on both sides. -/
theorem ReorderedFields.names {fields : List (String × Codec)} {vs ws : List (String × Value)}
    (h : ReorderedFields fields vs ws) :
    vs.map Prod.fst = fields.map Prod.fst ∧ ws.map Prod.fst = fields.map Prod.fst := by
  fun_induction ReorderedFields fields vs ws with
  | case1 => exact ⟨rfl, rfl⟩
  | case2 name c fields x v vs y w ws ih =>
    obtain ⟨rfl, rfl, -, h⟩ := h
    obtain ⟨hvs, hws⟩ := ih h
    simp only [List.map_cons, hvs, hws, and_self]
  | case3 => exact h.elim

/-- Reordered fields are reordered by name, if the names are different. -/
theorem ReorderedFields.of_lookup {fields : List (String × Codec)} {vs ws : List (String × Value)}
    (h : ReorderedFields fields vs ws) (hnames : (fields.map Prod.fst).Nodup) :
    ∀ f ∈ fields, ∀ x y, vs.lookup f.1 = some x → ws.lookup f.1 = some y → f.2.Reordered x y := by
  fun_induction ReorderedFields fields vs ws with
  | case1 => exact nofun
  | case2 name c fields x v vs y w ws ih =>
    obtain ⟨rfl, rfl, hvw, h⟩ := h
    rw [List.map_cons, List.nodup_cons] at hnames
    refine List.forall_mem_cons.2 ⟨fun a b ha hb => ?_, fun f hf a b ha hb => ?_⟩
    · rw [List.lookup_cons_self, Option.some.injEq] at ha hb
      exact ha ▸ hb ▸ hvw
    · have hmem : f.1 ∈ fields.map Prod.fst := List.mem_map.2 ⟨f, hf, rfl⟩
      have hne : f.1 ≠ y := fun he => hnames.1 (he ▸ hmem)
      rw [Table.lookup_cons_eq_ite, if_neg hne] at ha hb
      exact ih h hnames.2 f hf a b ha hb
  | case3 => exact h.elim

/-- Records of this library are reordered when their fields are. -/
theorem reordered_record_of_fields {name type : String} {fields : List (String × Codec)}
    {wrapped : Bool} {vs ws : List (String × Value)} (hnames : (fields.map Prod.fst).Nodup)
    (h : ReorderedFields fields vs ws) :
    (struct name fields (.record type) wrapped).Reordered (.record type vs) (.record type ws) := by
  refine reordered_record ?_ (h.names.1.trans h.names.2.symm) (h.of_lookup hnames)
  simp [accepts]

/-- Records of a union are reordered when they are with respect to the variants of their type. -/
theorem reordered_union_record {name type : String} {variants : List (Nat × String × Codec)}
    {vs ws : List (String × Value)}
    (h : ∀ x ∈ variants, x.2.2.accepts (.record type []) = true →
      x.2.2.Reordered (.record type vs) (.record type ws)) :
    (union name variants).Reordered (.record type vs) (.record type ws) := by
  refine .accepted nofun nofun ?_ fun x hx => h x (List.mem_of_find?_eq_some hx) ?_
  · simp only [accepts_record _ type vs, accepts_record _ type ws]
  · have haccepts := List.find?_some hx
    rwa [accepts_record] at haccepts

end Codec

end StrictContract
