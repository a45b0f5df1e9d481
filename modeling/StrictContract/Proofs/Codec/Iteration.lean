import StrictContract.Proofs.Codec.Reordering

/-! # Iteration — which failure of a collection is met first

The elements of a set and the keys of a map are encoded in the order in which they are supplied, and
sorted afterwards. If several of them have no encoding, the first one decides what the collection fails
with, so the failure depends on the order of supply. It does not if at most one of them has none: then
values that are reordered are written with the same outcome, be it bytes or a failure. -/

namespace StrictContract

/-! ## Loops in any order -/

section

variable {α β γ : Type}

/-- A loop over images has the same outcome for two functions whose images are treated alike. -/
theorem mapM_map_eq {f g : γ → α} {s : α → Except Failure β} {xs : List γ}
    (h : ∀ c ∈ xs, s (f c) = s (g c)) : (xs.map f).mapM s = (xs.map g).mapM s := by
  induction xs with
  | nil => rfl
  | cons x xs ih =>
    rw [List.forall_mem_cons] at h
    rw [List.map_cons, List.map_cons, List.mapM_cons, List.mapM_cons, h.1, ih h.2]

/-- A loop fails with the failure of one of its rounds. -/
theorem exists_round_of_mapM {f : α → Except Failure β} {xs : List α} {e : Failure}
    (h : xs.mapM f = .error e) : ∃ x ∈ xs, f x = .error e := by
  induction xs with
  | nil => cases h
  | cons x xs ih =>
    rw [List.mapM_cons] at h
    cases hx : f x with
    | error e' =>
      rw [hx] at h
      cases h
      exact ⟨x, List.mem_cons_self .., hx⟩
    | ok b =>
      rw [hx] at h
      cases hxs : xs.mapM f with
      | error e' =>
        rw [hxs] at h
        cases h
        obtain ⟨y, hy, he⟩ := ih hxs
        exact ⟨y, List.mem_cons_of_mem _ hy, he⟩
      | ok bs =>
        rw [hxs] at h
        cases h

/-- Two outcomes are **paired** when they are the same failure, or results that are related. -/
def Paired (S : β → β → Prop) (x y : Except Failure β) : Prop :=
  (∃ e, x = .error e ∧ y = .error e) ∨ ∃ b c, x = .ok b ∧ y = .ok c ∧ S b c

variable {S : β → β → Prop} {f : α → Except Failure β} {vs ws : List α}

/-- A round that fails makes a loop fail, with the failure of one of its rounds. -/
theorem mapM_eq_error {v : α} (hv : v ∈ vs) {e : Failure} (he : f v = .error e)
    (hsole : ∀ w ∈ vs, ∀ d, f w = .error d → d = e) : vs.mapM f = .error e := by
  cases h : vs.mapM f with
  | ok os =>
    obtain ⟨ps, rfl, -, hps⟩ := mapM_eq_ok.1 h
    obtain ⟨q, hq, rfl⟩ := List.mem_map.1 hv
    rw [hps q hq] at he
    cases he
  | error d =>
    obtain ⟨w, hw, hd⟩ := exists_round_of_mapM h
    rw [hsole w hw d hd]

/-- A loop over an arrangement of items with results gives an arrangement of the results. -/
theorem mapM_eq_ok_of_perm (ps : List (α × β)) (hvs : vs.Perm (ps.map Prod.fst))
    (hps : ∀ q ∈ ps, f q.1 = .ok q.2) : ∃ os, vs.mapM f = .ok os ∧ os.Perm (ps.map Prod.snd) := by
  obtain ⟨qs, hqs, rfl⟩ := exists_perm_of_perm_map hvs
  exact ⟨_, mapM_eq_ok.2 ⟨qs, rfl, rfl, fun q hq => hps q (hqs.mem_iff.1 hq)⟩, hqs.map _⟩

/-- Loops over paired items in any order have paired outcomes, if no two rounds of them fail
differently. -/
theorem mapM_paired (xs : List (α × α)) (hvs : vs.Perm (xs.map Prod.fst))
    (hws : ws.Perm (xs.map Prod.snd))
    (hxs : ∀ x ∈ xs, Paired S (f x.1) (f x.2))
    (hsole : ∀ v ∈ vs, ∀ w ∈ vs, ∀ d e, f v = .error d → f w = .error e → d = e) :
    Paired (fun os qs => ∃ ys : List (β × β), os.Perm (ys.map Prod.fst) ∧ qs.Perm (ys.map Prod.snd) ∧
      ∀ y ∈ ys, S y.1 y.2) (vs.mapM f) (ws.mapM f) := by
  by_cases hall : ∀ x ∈ xs, ∃ y : β × β, f x.1 = .ok y.1 ∧ f x.2 = .ok y.2 ∧ S y.1 y.2
  · -- every pair of items comes with the pair of their results
    obtain ⟨zs, rfl, hzs⟩ := exists_eq_map (f := fun z : (α × α) × (β × β) => z.1)
      (P := fun z => f z.1.1 = .ok z.2.1 ∧ f z.1.2 = .ok z.2.2 ∧ S z.2.1 z.2.2)
      fun x hx => (hall x hx).elim fun y hy => ⟨(x, y), rfl, hy⟩
    obtain ⟨os, hos, hfst⟩ := mapM_eq_ok_of_perm (f := f) (zs.map fun z => (z.1.1, z.2.1))
      (by simpa [Function.comp_def] using hvs) (List.forall_mem_map.2 fun z hz => (hzs z hz).1)
    obtain ⟨qs, hqs, hsnd⟩ := mapM_eq_ok_of_perm (f := f) (zs.map fun z => (z.1.2, z.2.2))
      (by simpa [Function.comp_def] using hws) (List.forall_mem_map.2 fun z hz => (hzs z hz).2.1)
    refine .inr ⟨os, qs, hos, hqs, zs.map Prod.snd, ?_, ?_, ?_⟩
    · simpa [Function.comp_def] using hfst
    · simpa [Function.comp_def] using hsnd
    · exact List.forall_mem_map.2 fun z hz => (hzs z hz).2.2
  · -- a pair without results fails, and every failure on either side is its failure
    obtain ⟨x, hall⟩ := Classical.not_forall.1 hall
    obtain ⟨hx, hnone⟩ := Classical.not_imp.1 hall
    have hmem : ∀ y ∈ xs, y.1 ∈ vs := fun y hy => hvs.mem_iff.2 (List.mem_map_of_mem hy)
    rcases hxs x hx with ⟨e, hfst, hsnd⟩ | ⟨b, c, hb, hc, hbc⟩
    · refine .inl ⟨e, mapM_eq_error (hmem x hx) hfst fun w hw d hd =>
        hsole w hw x.1 (hmem x hx) d e hd hfst, ?_⟩
      refine mapM_eq_error (hws.mem_iff.2 (List.mem_map_of_mem hx)) hsnd fun w hw d hd => ?_
      obtain ⟨y, hy, rfl⟩ := List.mem_map.1 (hws.mem_iff.1 hw)
      rcases hxs y hy with ⟨d', hd', hd''⟩ | ⟨b, c, -, hc, -⟩
      · rw [hd] at hd''
        cases hd''
        exact hsole y.1 (hmem y hy) x.1 (hmem x hx) d e hd' hfst
      · rw [hd] at hc
        cases hc
    · exact absurd ⟨(b, c), hb, hc, hbc⟩ hnone

end

/-! ## Ascending arrangements -/

section

variable {α : Type} {es fs : List (Octets × α)} {xs : List ((Octets × α) × (Octets × α))}

/-- Which encoding is repeated depends on the encodings only. -/
theorem repeated?_map_fst (es : List (Octets × α)) :
    repeated? es = repeated? ((es.map Prod.fst).map fun o => (o, ())) := by
  induction es with
  | nil => rfl
  | cons x es ih =>
    cases es with
    | nil => rfl
    | cons y es =>
      rw [repeated?, ih]
      rfl

/-- Entries with the same encodings in any order fail to ascend with the same failure. -/
theorem ascending_eq_error (h : (es.map Prod.fst).Perm (fs.map Prod.fst)) {e : Failure}
    (he : ascending es = .error e) : ascending fs = .error e := by
  have hsorted : ∀ gs : List (Octets × α), (gs.mergeSort fun a b => a.1.le b.1).map Prod.fst =
      (gs.map Prod.fst).mergeSort Octets.le := fun gs =>
    List.map_mergeSort (s := Octets.le) fun a _ b _ => rfl
  have horders : Orders Octets.le := orders_of_key (fun o : Octets => o) fun _ _ hab => hab
  have hrepeated : repeated? (es.mergeSort fun a b => a.1.le b.1) =
      repeated? (fs.mergeSort fun a b => a.1.le b.1) := by
    rw [repeated?_map_fst, hsorted, horders.mergeSort_eq h, ← hsorted, ← repeated?_map_fst]
  unfold ascending at he ⊢
  dsimp only at he ⊢
  rw [hrepeated] at he
  cases hnone : repeated? (fs.mergeSort fun a b => a.1.le b.1) with
  | none =>
    rw [hnone] at he
    cases he
  | some octets =>
    rw [hnone] at he
    exact he

/-- The ascending arrangements of paired entries, in any order, are paired. -/
theorem ascending_paired (hes : es.Perm (xs.map Prod.fst)) (hfs : fs.Perm (xs.map Prod.snd))
    (hxs : ∀ x ∈ xs, x.1.1 = x.2.1) :
    Paired (fun ds gs => ∃ zs : List ((Octets × α) × (Octets × α)), zs.Perm xs ∧
      ds = zs.map Prod.fst ∧ gs = zs.map Prod.snd) (ascending es) (ascending fs) := by
  have hkeys : ∀ {ys : List ((Octets × α) × (Octets × α))}, (∀ y ∈ ys, y.1.1 = y.2.1) →
      (ys.map Prod.fst).map Prod.fst = (ys.map Prod.snd).map Prod.fst := by
    intro ys hys
    rw [List.map_map, List.map_map]
    exact List.map_congr_left hys
  cases hds : ascending es with
  | ok ds =>
    obtain ⟨hperm, hlt⟩ := ascending_eq_ok.1 hds
    obtain ⟨zs, hzs, rfl⟩ := exists_perm_of_perm_map (hperm.trans hes)
    rw [hkeys fun z hz => hxs z (hzs.mem_iff.1 hz)] at hlt
    exact .inr ⟨_, _, rfl, ascending_eq_ok.2 ⟨(hzs.map _).trans hfs.symm, hlt⟩, zs, hzs, rfl, rfl⟩
  | error e =>
    refine .inl ⟨e, rfl, ascending_eq_error ?_ hds⟩
    exact ((hes.map _).trans (hkeys hxs ▸ .refl _)).trans (hfs.map _).symm

end

/-! ## Collections with at most one fault -/

namespace Codec

/-- At most one of the values has no encoding. -/
def SoleFault (c : Codec) (vs : List Value) : Prop :=
  ∀ v ∈ vs, ∀ w ∈ vs, (∀ p, c.write v ≠ .ok p) → (∀ p, c.write w ≠ .ok p) → v = w

/-- Of values with at most one fault no two fail differently as entries. -/
theorem SoleFault.eq_of_error {c : Codec} {vs : List Value} (h : c.SoleFault vs) {v w : Value}
    (hv : v ∈ vs) (hw : w ∈ vs) {d e : Failure} (hd : insideEntry v (c.write v) = .error d)
    (he : insideEntry w (c.write w) = .error e) : d = e := by
  have hfails : ∀ {u : Value} {f : Failure}, insideEntry u (c.write u) = .error f →
      ∀ p, c.write u ≠ .ok p := by
    intro u f hu p hp
    rw [hp] at hu
    cases hu
  obtain rfl := h v hv w hw (hfails hd) (hfails he)
  rw [hd, Except.error.injEq] at he
  exact he

/-- A step that keeps its result fails as it does. -/
theorem made_eq_error {α β : Type} {x : Except Failure α} {f : α → β} {e : Failure} :
    (do return f (← x)) = Except.error e ↔ x = .error e := by
  cases x with
  | ok a => exact ⟨nofun, nofun⟩
  | error d => exact ⟨fun h => by cases h; rfl, fun h => by cases h; rfl⟩

/-- A set of which at most one element has no encoding is written with the same outcome in any order. -/
theorem write_set_of_perm {item : Codec} {b : Bounds} {form : SetForm} {label : Option String}
    {vs ws : List Value} (h : vs.Perm ws) (hsole : item.SoleFault vs) :
    (set item b form label).write (.set vs) = (set item b form label).write (.set ws) := by
  let encode : Value → Except Failure (Octets × Unit) := fun x => do
    return (← insideEntry x (item.write x), ())
  let arrange : List (Octets × Unit) → Except Failure Octets := fun entries => do
    let sorted ← ascending entries
    b.checkEntries sorted.length
    return b.lengthPrefix sorted.length ++ (sorted.map Prod.fst).flatten
  rw [write, write]
  show (vs.mapM encode >>= arrange) = (ws.mapM encode >>= arrange)
  have hloops := mapM_paired (S := (· = ·)) (f := encode) (vs.map fun v => (v, v))
    (by simp [Function.comp_def]) (by simpa [Function.comp_def] using h.symm)
    (List.forall_mem_map.2 fun v _ => by
      cases hv : encode v with
      | ok o => exact .inr ⟨o, o, rfl, rfl, rfl⟩
      | error e => exact .inl ⟨e, rfl, rfl⟩)
    fun v hv w hw d e hd he => hsole.eq_of_error hv hw (made_eq_error.1 hd) (made_eq_error.1 he)
  rcases hloops with ⟨e, hvs, hws⟩ | ⟨os, qs, hvs, hws, ys, hos, hqs, hys⟩
  · rw [hvs, hws]
  · rw [hvs, hws]
    show arrange os = arrange qs
    -- sorting the same bytes forgets the order, and fails with the same repeated ones
    rcases ascending_paired hos hqs fun y hy => congrArg Prod.fst (hys y hy) with
      ⟨e, hds, hgs⟩ | ⟨_, _, hds, hgs, zs, hzs, rfl, rfl⟩
    · dsimp only [arrange]
      rw [hds, hgs]
    · have hsame : zs.map Prod.fst = zs.map Prod.snd :=
        List.map_congr_left fun z hz => hys z (hzs.mem_iff.1 hz)
      dsimp only [arrange]
      rw [hds, hgs, hsame]

/-- A mapping is written entry by entry: first its keys, then, in ascending order, its values. -/
theorem write_mapping_eq {key value : Codec} {b : Bounds} {form : MapForm} {label : Option String}
    (es : List (Value × Value)) : (map key value b form label).write (.map es) = (do
      let entries ← es.mapM fun e => do
        return (← insideEntry e.1 (key.write e.1), e.1, e.2)
      let sorted ← ascending entries
      b.checkEntries sorted.length
      let parts ← sorted.mapM fun x => do
        return x.1 ++ (← insideEntry x.2.1 (value.write x.2.2))
      return b.lengthPrefix sorted.length ++ parts.flatten) := by
  rw [write]
  show ((es.map fun e => Value.tuple [e.1, e.2]).mapM (fun e => do
    let x ← e.unpair
    return (← insideEntry x.1 (key.write x.1), x.1, x.2)) >>= _) = _
  rw [List.mapM_map]
  rfl

/-- A mapping of which at most one key has no encoding is written with the same outcome in any order, if
the values are. -/
theorem write_map_of_paired {key value : Codec} {b : Bounds} {form : MapForm} {label : Option String}
    {es fs : List (Value × Value)} {xs : List ((Value × Value) × (Value × Value))}
    (hes : es.Perm (xs.map Prod.fst)) (hfs : fs.Perm (xs.map Prod.snd))
    (hkeys : ∀ x ∈ xs, x.1.1 = x.2.1) (hvalues : ∀ x ∈ xs, value.write x.1.2 = value.write x.2.2)
    (hsole : key.SoleFault (es.map Prod.fst)) :
    (map key value b form label).write (.map es) = (map key value b form label).write (.map fs) := by
  let encode : Value × Value → Except Failure (Octets × Value × Value) := fun e => do
    return (← insideEntry e.1 (key.write e.1), e.1, e.2)
  let finish : Octets × Value × Value → Except Failure Octets := fun x => do
    return x.1 ++ (← insideEntry x.2.1 (value.write x.2.2))
  let arrange : List (Octets × Value × Value) → Except Failure Octets := fun entries => do
    let sorted ← ascending entries
    b.checkEntries sorted.length
    let parts ← sorted.mapM finish
    return b.lengthPrefix sorted.length ++ parts.flatten
  have hwrite : ∀ ds : List (Value × Value),
      (map key value b form label).write (.map ds) = (ds.mapM encode >>= arrange) := write_mapping_eq
  -- paired entries are encoded as the same bytes, with keys and values that are finished alike
  have hencode : ∀ x ∈ xs,
      Paired (fun o q => o.1 = q.1 ∧ finish o = finish q) (encode x.1) (encode x.2) := by
    intro x hx
    dsimp only [encode, finish]
    rw [hkeys x hx]
    cases insideEntry x.2.1 (key.write x.2.1) with
    | error e => exact .inl ⟨e, rfl, rfl⟩
    | ok raw => exact .inr ⟨_, _, rfl, rfl, rfl, by rw [hvalues x hx]⟩
  have hloops := mapM_paired xs hes hfs hencode fun d hd e he f g hf hg =>
    hsole.eq_of_error (List.mem_map_of_mem hd) (List.mem_map_of_mem he) (made_eq_error.1 hf)
      (made_eq_error.1 hg)
  rw [hwrite, hwrite]
  rcases hloops with ⟨e, hvs, hws⟩ | ⟨os, qs, hvs, hws, ys, hos, hqs, hys⟩
  · rw [hvs, hws]
  · rw [hvs, hws]
    show arrange os = arrange qs
    dsimp only [arrange]
    rcases ascending_paired hos hqs fun y hy => (hys y hy).1 with
      ⟨e, hds, hgs⟩ | ⟨_, _, hds, hgs, zs, hzs, rfl, rfl⟩
    · rw [hds, hgs]
    · rw [hds, hgs]
      show (b.checkEntries (zs.map Prod.fst).length >>= _) =
        (b.checkEntries (zs.map Prod.snd).length >>= _)
      rw [List.length_map, List.length_map, mapM_map_eq fun z hz => (hys z (hzs.mem_iff.1 hz)).2]

/-- A list is written with the same outcome when its items are, one by one. -/
theorem write_list_of_paired {item : Codec} {b : Bounds} {label : Option String}
    {xs : List (Value × Value)} (h : ∀ x ∈ xs, item.write x.1 = item.write x.2) :
    (list item b label).write (.tuple (xs.map Prod.fst)) =
      (list item b label).write (.tuple (xs.map Prod.snd)) := by
  have hwrite : ∀ f : Value × Value → Value, (list item b label).write (.tuple (xs.map f)) = (do
      b.checkEntries xs.length
      let parts ← (xs.zipIdx.map fun x => (f x.1, x.2)).mapM fun x =>
        inside (indexSegment x.2) (item.write x.1)
      return b.lengthPrefix xs.length ++ parts.flatten) := by
    intro f
    have hitems : (xs.map f).zipIdx = xs.zipIdx.map fun x => (f x.1, x.2) := List.zipIdx_map ..
    rw [write, ← hitems]
    show (b.checkEntries (xs.map f).length >>= fun _ => _) = _
    rw [List.length_map]
  rw [hwrite, hwrite]
  rw [mapM_map_eq (g := fun x : (Value × Value) × Nat => (x.1.2, x.2)) fun x hx => ?_]
  show inside _ (item.write x.1.1) = inside _ (item.write x.1.2)
  rw [h x.1 (List.fst_mem_of_mem_zipIdx hx)]

/-! ## Records -/

/-- Fields of which every one is written with the same outcome under the codec of its name. -/
def SameOutcomes :
    List (String × Codec) → List (String × Value) → List (String × Value) → Prop
  | [], [], [] => True
  | (name, c) :: fields, (x, v) :: vs, (y, w) :: ws =>
    x = name ∧ y = name ∧ c.write v = c.write w ∧ SameOutcomes fields vs ws
  | _, _, _ => False

/-- Fields with the same outcomes are those of the struct, on both sides. -/
theorem SameOutcomes.names {fields : List (String × Codec)} {vs ws : List (String × Value)}
    (h : SameOutcomes fields vs ws) :
    vs.map Prod.fst = fields.map Prod.fst ∧ ws.map Prod.fst = fields.map Prod.fst := by
  fun_induction SameOutcomes fields vs ws with
  | case1 => exact ⟨rfl, rfl⟩
  | case2 name c fields x v vs y w ws ih =>
    obtain ⟨rfl, rfl, -, h⟩ := h
    obtain ⟨hvs, hws⟩ := ih h
    simp only [List.map_cons, hvs, hws, and_self]
  | case3 => exact h.elim

theorem writeFields_eq_of_sameOutcomes {fields : List (String × Codec)}
    {vs ws : List (String × Value)} {v w : Value} (h : SameOutcomes fields vs ws)
    (hv : ∀ x ∈ vs, v.field x.1 = .ok x.2) (hw : ∀ x ∈ ws, w.field x.1 = .ok x.2) :
    writeFields fields v = writeFields fields w := by
  fun_induction SameOutcomes fields vs ws with
  | case1 => rfl
  | case2 name c fields x a vs y b ws ih =>
    obtain ⟨rfl, rfl, hab, h⟩ := h
    rw [List.forall_mem_cons] at hv hw
    rw [writeFields, writeFields, hv.1, hw.1, ih h hv.2 hw.2]
    show (inside _ (c.write a) >>= _) = (inside _ (c.write b) >>= _)
    rw [hab]
  | case3 => exact h.elim

/-- Records are written with the same outcome when their fields are. -/
theorem write_record_of_sameOutcomes {name type : String} {fields : List (String × Codec)}
    {wrapped : Bool} {vs ws : List (String × Value)} (hnames : (fields.map Prod.fst).Nodup)
    (h : SameOutcomes fields vs ws) :
    (struct name fields (.record type) wrapped).write (.record type vs) =
      (struct name fields (.record type) wrapped).write (.record type ws) := by
  rw [write_record, write_record]
  exact writeFields_eq_of_sameOutcomes h (fun x hx => field_record (h.names.1 ▸ hnames) hx)
    fun x hx => field_record (h.names.2 ▸ hnames) hx

/-- Records of a union are written with the same outcome when they are by the variants of their type. -/
theorem write_union_of_variants {name type : String} {variants : List (Nat × String × Codec)}
    {vs ws : List (String × Value)}
    (h : ∀ x ∈ variants, x.2.2.accepts (.record type []) = true →
      x.2.2.write (.record type vs) = x.2.2.write (.record type ws)) :
    (union name variants).write (.record type vs) = (union name variants).write (.record type ws) := by
  rw [write_union_record, write_union_record]
  induction variants with
  | nil => rfl
  | cons x variants ih =>
    rw [List.forall_mem_cons] at h
    rw [writeAccepted, writeAccepted, accepts_record _ type vs, accepts_record _ type ws, ih h.2]
    split
    · rename_i haccepts
      rw [h.1 haccepts]
    · rfl

end Codec

end StrictContract
