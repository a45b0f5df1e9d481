import StrictContract.Proofs.Codec.Failing
import StrictContract.Proofs.Codec.Parts

/-! # Blame — the place that an error of the writer names

A codec **refuses** a value by its own check when it does so for what the value is as a whole: its
type, its number of items, entries with the same encoding. Every strict error of the writer is such a
refusal somewhere, or the absence of a field. From the codec and the value that are written a chain of
steps leads there, each into a field, an item, an entry, a variant or what is present, and the path of
the error consists of the segments of these steps, those that are not empty. -/

namespace StrictContract

/-! ## Encodings that occur twice -/

/-- The **least repeated** of some encodings: the least one that occurs more than once. -/
structure IsLeastRepeated (octets : Octets) (encodings : List Octets) : Prop where
  repeats : 2 ≤ encodings.count octets
  least : ∀ other, 2 ≤ encodings.count other → octets ≤ other

theorem IsLeastRepeated.eq {p q : Octets} {encodings : List Octets}
    (hp : IsLeastRepeated p encodings) (hq : IsLeastRepeated q encodings) : p = q :=
  List.le_antisymm (hp.least q hq.repeats) (hq.least p hp.repeats)

theorem IsLeastRepeated.not_nodup {octets : Octets} {encodings : List Octets}
    (h : IsLeastRepeated octets encodings) : ¬ encodings.Nodup := by
  intro hnodup
  have hcount := List.nodup_iff_count.1 hnodup octets
  have hrepeats := h.repeats
  omega

theorem IsLeastRepeated.perm {octets : Octets} {encodings encodings' : List Octets}
    (h : IsLeastRepeated octets encodings) (hperm : encodings.Perm encodings') :
    IsLeastRepeated octets encodings' where
  repeats := hperm.count_eq octets ▸ h.repeats
  least other hother := h.least other ((hperm.count_eq other).symm ▸ hother)

section

variable {α : Type} {entries : List (Octets × α)}

/-- Among sorted encodings the first neighbours that coincide are the least ones that are repeated. -/
theorem isLeastRepeated_of_repeated? {octets : Octets}
    (hsorted : (entries.map Prod.fst).Pairwise (· ≤ ·)) (h : repeated? entries = some octets) :
    IsLeastRepeated octets (entries.map Prod.fst) := by
  induction entries with
  | nil => cases h
  | cons x xs ih =>
    cases xs with
    | nil => cases h
    | cons y xs =>
      rw [repeated?] at h
      rw [List.map_cons, List.pairwise_cons] at hsorted
      rw [List.map_cons]
      split at h
      · rename_i heq
        cases h
        refine ⟨by simp [← heq], fun other hother => ?_⟩
        have hmem := List.count_pos_iff.1 (Nat.lt_of_lt_of_le Nat.zero_lt_two hother)
        rcases List.mem_cons.1 hmem with rfl | hmem
        · exact List.le_refl _
        · exact hsorted.1 other hmem
      · rename_i hne
        have hrest := ih hsorted.2 h
        refine ⟨Nat.le_trans hrest.repeats (List.count_le_count_cons ..), fun other hother => ?_⟩
        by_cases hother' : x.1 = other
        · -- the first encoding comes before all others, so it does not occur among them
          subst hother'
          rw [List.count_cons_self] at hother
          have hmem : x.1 ∈ (y :: xs).map Prod.fst := List.count_pos_iff.1 (by omega)
          have hle : y.1 ≤ x.1 := by
            rw [List.map_cons, List.pairwise_cons] at hsorted
            rcases List.mem_cons.1 hmem with heq | hmem
            · exact absurd heq hne
            · exact hsorted.2.1 _ hmem
          exact absurd (List.le_antisymm (hsorted.1 y.1 (List.mem_cons_self ..)) hle) hne
        · rw [List.count_cons_of_ne hother'] at hother
          exact hrest.least other hother

/-- Entries have no ascending arrangement if an encoding is repeated, and the least such is named. -/
theorem ascending_eq_error_iff {e : Failure} : ascending entries = .error e ↔
    ∃ octets, IsLeastRepeated octets (entries.map Prod.fst) ∧
      e = .strict ⟨.duplicateEntry (Octets.toHex (octets.take 8)), []⟩ := by
  have hperm := (List.mergeSort_perm entries fun a b => a.1.le b.1).map Prod.fst
  have hle : ((entries.mergeSort fun a b => a.1.le b.1).map Prod.fst).Pairwise (· ≤ ·) := by
    rw [List.pairwise_map]
    exact pairwise_le_mergeSort Prod.fst entries
  unfold ascending
  dsimp only
  cases hrepeated : repeated? (entries.mergeSort fun a b => a.1.le b.1) with
  | none =>
    refine iff_of_false nofun ?_
    rintro ⟨octets, hoctets, -⟩
    have hnodup : (entries.map Prod.fst).Nodup :=
      hperm.nodup_iff.1 (pairwise_lt_of_repeated?_eq_none hle hrepeated).nodup
    exact hoctets.not_nodup hnodup
  | some octets =>
    have hoctets := (isLeastRepeated_of_repeated? hle hrepeated).perm hperm
    constructor
    · intro h
      exact ⟨octets, hoctets, (Except.error.inj h).symm⟩
    · rintro ⟨octets', hoctets', rfl⟩
      rw [hoctets'.eq hoctets]
      rfl

end

/-- Encodings of entries that bounds **refuse**: one of them is repeated, or there are too few or too
many. -/
def Bounds.RefusesEntries (b : Bounds) (encodings : List Octets) (cause : Cause) : Prop :=
  (∃ octets, IsLeastRepeated octets encodings ∧
    cause = .duplicateEntry (Octets.toHex (octets.take 8))) ∨
  (encodings.Nodup ∧ b.admits encodings.length = false ∧
    cause = .cardinality encodings.length b.min b.max)

/-- A number of entries fails its check when it is not admitted. -/
theorem checkEntries_eq_error {b : Bounds} {n : Nat} {e : Failure} : b.checkEntries n = .error e ↔
    b.admits n = false ∧ e = .strict ⟨.cardinality n b.min b.max, []⟩ := by
  unfold Bounds.checkEntries
  cases b.admits n with
  | true => simp
  | false =>
    constructor
    · intro h
      exact ⟨rfl, (Except.error.inj h).symm⟩
    · rintro ⟨-, rfl⟩
      rfl

namespace Codec

/-! ## Refusals -/

/-- A codec **refuses** a value with a cause by its own check, whatever the parts of the value are.
Scalars have no other failures; optional values and structs are not checked as a whole. -/
def Refuses : Codec → Value → Cause → Prop
  | list _ b _, v, cause => ∃ items, v.items? = some items ∧ b.admits items.length = false ∧
      cause = .cardinality items.length b.min b.max
  | set item b _ _, v, cause => ∃ xs : List (Value × Octets), v.items? = some (xs.map Prod.fst) ∧
      (∀ x ∈ xs, item.write x.1 = .ok x.2) ∧ b.RefusesEntries (xs.map Prod.snd) cause
  | map key _ b form _, v, cause => v.mapItems form = fail cause ∨
      ∃ xs : List (Value × Octets), v.mapItems form = .ok (xs.map Prod.fst) ∧
        (∀ x ∈ xs, ∃ e, x.1.unpair = .ok e ∧ key.write e.1 = .ok x.2) ∧
        b.RefusesEntries (xs.map Prod.snd) cause
  | array _ count, v, cause => ∃ items, v.items? = some items ∧ items.length ≠ count ∧
      cause = .itemCount count items.length
  | tuple cs, v, cause => ∃ items, v.items? = some items ∧ items.length ≠ cs.length ∧
      cause = .tupleArity cs.length items.length
  | union name variants, .tagged variant _, cause =>
      (variants.find? fun x => x.2.1 = variant) = none ∧ cause = .unknownVariant name variant
  | union name variants, v, cause =>
      (variants.find? fun x => x.2.2.accepts v) = none ∧ cause = .noVariant v.typeName name
  | option _, _, _ => False
  | struct .., _, _ => False
  | c, v, cause => c.write v = fail cause

/-- A codec **enters** a part of a value at a segment of a path, and writes it under one of its own
parts. What is present is entered at no segment. -/
inductive Enters : Codec → Value → String → Codec → Value → Prop
  | list {item : Codec} {b : Bounds} {label : Option String} {v x : Value} {items : List Value}
      {i : Nat} (hitems : v.items? = some items) (hx : items[i]? = some x) :
      Enters (list item b label) v (indexSegment i) item x
  | array {item : Codec} {count : Nat} {v x : Value} {items : List Value} {i : Nat}
      (hitems : v.items? = some items) (hx : items[i]? = some x) :
      Enters (array item count) v (indexSegment i) item x
  | tuple {cs : List Codec} {c : Codec} {v x : Value} {items : List Value} {i : Nat}
      (hitems : v.items? = some items) (hc : cs[i]? = some c) (hx : items[i]? = some x) :
      Enters (tuple cs) v (indexSegment i) c x
  | element {item : Codec} {b : Bounds} {form : SetForm} {label : Option String} {v x : Value}
      {items : List Value} {shown : String} (hitems : v.items? = some items) (hx : x ∈ items)
      (hshown : x.labelled = .ok shown) :
      Enters (set item b form label) v (entrySegment shown) item x
  | key {key value : Codec} {b : Bounds} {form : MapForm} {label : Option String} {v e k x : Value}
      {items : List Value} {shown : String} (hitems : v.mapItems form = .ok items) (he : e ∈ items)
      (hpair : e.unpair = .ok (k, x)) (hshown : k.labelled = .ok shown) :
      Enters (map key value b form label) v (entrySegment shown) key k
  | value {key value : Codec} {b : Bounds} {form : MapForm} {label : Option String} {v e k x : Value}
      {items : List Value} {shown : String} (hitems : v.mapItems form = .ok items) (he : e ∈ items)
      (hpair : e.unpair = .ok (k, x)) (hshown : k.labelled = .ok shown) :
      Enters (map key value b form label) v (entrySegment shown) value x
  | present {inner : Codec} {v : Value} (hv : v ≠ .null) : Enters (option inner) v "" inner v
  | field {name : String} {fields : List (String × Codec)} {form : StructForm} {wrapped : Bool}
      {v x : Value} {f : String × Codec}
      (hbare : (wrapped && !(struct name fields form wrapped).accepts v) = false) (hf : f ∈ fields)
      (hx : v.field f.1 = .ok x) : Enters (struct name fields form wrapped) v f.1 f.2 x
  | bare {name : String} {f : String × Codec} {rest : List (String × Codec)} {form : StructForm}
      {v : Value} (hbare : (struct name (f :: rest) form true).accepts v = false) :
      Enters (struct name (f :: rest) form true) v f.1 f.2 v
  | tagged {name variant : String} {variants : List (Nat × String × Codec)} {payload : Value}
      {x : Nat × String × Codec} (hx : (variants.find? fun x => x.2.1 = variant) = some x) :
      Enters (union name variants) (.tagged variant payload) x.2.1 x.2.2 payload
  | accepted {name : String} {variants : List (Nat × String × Codec)} {v : Value}
      {x : Nat × String × Codec} (hv : ∀ variant payload, v ≠ .tagged variant payload)
      (hx : (variants.find? fun x => x.2.2.accepts v) = some x) :
      Enters (union name variants) v x.2.1 x.2.2 v

/-- A chain of steps **descends** from a codec and a value to parts of them, at the segments of the
steps. -/
inductive Descends : Codec → Value → List String → Codec → Value → Prop
  | here {c : Codec} {v : Value} : Descends c v [] c v
  | step {c c' c'' : Codec} {v v' v'' : Value} {segment : String} {segments : List String}
      (h : Enters c v segment c' v') (h' : Descends c' v' segments c'' v'') :
      Descends c v (segment :: segments) c'' v''

/-- A value **lacks** a field when it is asked for the fields of a struct and has no such field. -/
inductive Lacks : Codec → Value → String → Cause → Prop
  | mk {name : String} {fields : List (String × Codec)} {form : StructForm} {wrapped : Bool}
      {v : Value} {f : String × Codec} {cause : Cause}
      (hbare : (wrapped && !(struct name fields form wrapped).accepts v) = false) (hf : f ∈ fields)
      (hlacks : v.field f.1 = fail cause) : Lacks (struct name fields form wrapped) v f.1 cause

/-! ### A refusal is a failure of the writer -/

/-- Encoded entries that bounds refuse fail to be arranged or to be counted. -/
theorem ascending_of_refusesEntries {α : Type} {b : Bounds} {entries : List (Octets × α)}
    {cause : Cause} (h : b.RefusesEntries (entries.map Prod.fst) cause) {β : Type}
    (f : List (Octets × α) → Except Failure β) :
    (do let sorted ← ascending entries; b.checkEntries sorted.length; f sorted) = fail cause := by
  rcases h with ⟨octets, hoctets, rfl⟩ | ⟨hnodup, hn, rfl⟩
  · rw [ascending_eq_error_iff.2 ⟨octets, hoctets, rfl⟩]
    rfl
  · cases hsorted : ascending entries with
    | error e =>
      obtain ⟨octets, hoctets, -⟩ := ascending_eq_error_iff.1 hsorted
      exact absurd hnodup hoctets.not_nodup
    | ok sorted =>
      have hlength : sorted.length = (entries.map Prod.fst).length := by
        rw [(ascending_eq_ok.1 hsorted).1.length_eq, List.length_map]
      have hcheck := checkEntries_eq_error.2 ⟨hn, rfl⟩
      rw [← hlength] at hcheck ⊢
      rw [ok_bind, hcheck]
      rfl

/-- A payload is written under the first variant of its name, if there is one. -/
theorem writeNamed_eq (union variant : String) (variants : List (Nat × String × Codec)) (v : Value) :
    writeNamed union variant variants v =
      match variants.find? fun x => x.2.1 = variant with
      | some x => do return UInt8.ofNat x.1 :: (← inside x.2.1 (x.2.2.write v))
      | none => fail (.unknownVariant union variant) := by
  induction variants with
  | nil => rfl
  | cons x variants ih =>
    rw [writeNamed, List.find?_cons]
    by_cases hname : x.2.1 = variant
    · rw [if_pos hname, decide_eq_true hname]
    · rw [if_neg hname, decide_eq_false hname]
      exact ih

/-- A value is written under the first variant that it says to be of, if there is one. -/
theorem writeAccepted_eq (union : String) (variants : List (Nat × String × Codec)) (v : Value) :
    writeAccepted union variants v =
      match variants.find? fun x => x.2.2.accepts v with
      | some x => do return UInt8.ofNat x.1 :: (← inside x.2.1 (x.2.2.write v))
      | none => fail (.noVariant v.typeName union) := by
  induction variants with
  | nil => rfl
  | cons x variants ih =>
    rw [writeAccepted, List.find?_cons]
    cases x.2.2.accepts v with
    | true => rfl
    | false => exact ih

/-- What a codec refuses by its own check is not written for that cause, at no further place. -/
theorem Refuses.write_eq {c : Codec} {v : Value} {cause : Cause} (h : c.Refuses v cause) :
    c.write v = fail cause := by
  cases c with
  | list item b label =>
    obtain ⟨items, hitems, hn, rfl⟩ := h
    rw [write, Value.iterate_eq_ok.2 hitems, ok_bind, checkEntries_eq_error.2 ⟨hn, rfl⟩]
    rfl
  | set item b form label =>
    obtain ⟨xs, hitems, hxs, hrefuses⟩ := h
    have hentries : ((xs.map Prod.fst).mapM fun x =>
        (do return (← insideEntry x (item.write x), ()) : Except Failure (Octets × Unit))) =
          .ok (xs.map fun x => (x.2, ())) := by
      refine mapM_eq_ok.2 ⟨xs.map fun x => (x.1, x.2, ()), ?_, ?_, List.forall_mem_map.2 fun x hx => ?_⟩
      · simp [Function.comp_def]
      · simp [Function.comp_def]
      · rw [insideEntry_eq_ok.2 (hxs x hx)]
        rfl
    rw [write, Value.iterate_eq_ok.2 hitems, ok_bind, hentries, ok_bind]
    exact ascending_of_refusesEntries (by simpa [Function.comp_def] using hrefuses) _
  | map key value b form label =>
    rcases h with h | ⟨xs, hitems, hxs, hrefuses⟩
    · rw [write, h]
      rfl
    · obtain ⟨ys, rfl, hys⟩ := exists_eq_map (f := fun y : (Value × Octets) × Value × Value => y.1)
        (P := fun y => y.1.1.unpair = .ok y.2 ∧ key.write y.2.1 = .ok y.1.2)
        fun x hx => (hxs x hx).imp' (x, ·) fun e he => ⟨rfl, he⟩
      rw [List.map_map] at hitems
      have hentries : ((ys.map (Prod.fst ∘ Prod.fst)).mapM fun e => (do
          let x ← e.unpair
          return (← insideEntry x.1 (key.write x.1), x.1, x.2) :
            Except Failure (Octets × Value × Value))) = .ok (ys.map fun y => (y.1.2, y.2)) := by
        refine mapM_eq_ok.2 ⟨ys.map fun y => (y.1.1, y.1.2, y.2), ?_, ?_,
          List.forall_mem_map.2 fun y hy => ?_⟩
        · simp [Function.comp_def]
        · simp [Function.comp_def]
        · obtain ⟨hpair, hkey⟩ := hys y hy
          rw [hpair, ok_bind, insideEntry_eq_ok.2 hkey]
          rfl
      rw [write, hitems, ok_bind]
      refine (congrArg (· >>= _) hentries).trans ?_
      rw [ok_bind]
      exact ascending_of_refusesEntries (by simpa [Function.comp_def] using hrefuses) _
  | array item count =>
    obtain ⟨items, hitems, hn, rfl⟩ := h
    rw [write, Value.iterate_eq_ok.2 hitems, ok_bind, if_pos hn]
    rfl
  | tuple cs =>
    obtain ⟨items, hitems, hn, rfl⟩ := h
    rw [write, Value.iterate_eq_ok.2 hitems, ok_bind, if_pos hn]
    rfl
  | union name variants =>
    rw [write.eq_def]
    dsimp only
    split
    · obtain ⟨hnone, rfl⟩ := h
      rw [writeNamed_eq, hnone]
    · rename_i hv
      rw [Refuses] at h
      · rw [writeAccepted_eq, h.1, h.2]
      · exact hv
  | option | struct => exact h.elim
  | unit | bool | unicode | uint | sint | byteArray | id | bytes | ascii | enumeration => exact h

/-! ## Chains of steps -/

/-- An error is **explained** by a codec and a value when a chain of steps descends to a refusal with
its cause, or to the absence of a field, and its path consists of the segments on the way. -/
def Explained (c : Codec) (v : Value) (e : StrictError) : Prop :=
  ∃ segments c' v', Descends c v segments c' v' ∧
    ((c'.Refuses v' e.cause ∧ e.path = segments.filter (· ≠ "")) ∨
      ∃ field, c'.Lacks v' field e.cause ∧ e.path = (segments ++ [field]).filter (· ≠ ""))

/-- One more step in front explains the error inside of its place. -/
theorem Enters.explained {c c' : Codec} {v v' : Value} {segment : String} {e : StrictError}
    (h : Enters c v segment c' v') (he : Explained c' v' e) : Explained c v (e.within segment) := by
  obtain ⟨segments, c'', v'', hdescends, hend⟩ := he
  refine ⟨segment :: segments, c'', v'', .step h hdescends, ?_⟩
  rw [StrictError.cause_within, StrictError.path_within_eq_filter, ← List.singleton_append (l := segments)]
  rcases hend with ⟨hrefuses, hpath⟩ | ⟨field, hlacks, hpath⟩
  · exact .inl ⟨hrefuses, by rw [hpath, List.filter_append]⟩
  · exact .inr ⟨field, hlacks, by rw [hpath, List.append_assoc, ← List.filter_append]⟩

/-- A refusal explains itself. -/
theorem Refuses.explained {c : Codec} {v : Value} {cause : Cause} (h : c.Refuses v cause) :
    Explained c v ⟨cause, []⟩ :=
  ⟨[], c, v, .here, .inl ⟨h, rfl⟩⟩

/-- A check whose failures are refusals explains them. -/
theorem failsWithin_explained {α : Type} {c : Codec} {v : Value} {x : Except Failure α}
    (hx : FailsBare x) (h : ∀ cause, x = fail cause → c.Refuses v cause) :
    FailsWithin (Explained c v) x := by
  intro e he
  obtain ⟨cause, path⟩ := e
  obtain rfl : path = [] := (hx _ he).path_eq
  exact (h cause he).explained

/-- What a part fails with is explained at the segment under which it is entered. -/
theorem Enters.failsWithin_inside {α : Type} {c c' : Codec} {v v' : Value} {segment : String}
    {x : Except Failure α} (h : Enters c v segment c' v') (hx : FailsWithin (Explained c' v') x) :
    FailsWithin (Explained c v) (inside segment x) :=
  StrictContract.failsWithin_inside (hx.imp fun _ he => h.explained he)

/-! ## Explaining every error -/

/-- Items are explained one by one, the first one at position `i`. -/
theorem failsWithin_writeItems {P : StrictError → Prop} {cs : List Codec} {vs : List Value} {i : Nat}
    (h : ∀ j c v, cs[j]? = some c → vs[j]? = some v →
      FailsWithin P (inside (indexSegment (i + j)) (c.write v))) :
    FailsWithin P (writeItems cs i vs) := by
  induction cs generalizing i vs with
  | nil =>
    rw [writeItems.eq_def]
    exact failsWithin_ok _
  | cons c cs ih =>
    cases vs with
    | nil =>
      rw [writeItems.eq_def]
      exact failsWithin_ok _
    | cons v vs =>
      have hrest : FailsWithin P (writeItems cs (i + 1) vs) := ih fun j c' v' hc hv => by
        have hj := h (j + 1) c' v' hc hv
        rwa [show i + (j + 1) = i + 1 + j by omega] at hj
      rw [writeItems]
      exact (h 0 c v rfl rfl).bind fun _ _ => hrest.bind fun _ _ => failsWithin_ok _

/-- Fields are explained one by one. -/
theorem failsWithin_writeFields {P : StrictError → Prop} {fields : List (String × Codec)} {v : Value}
    (h : ∀ f ∈ fields, FailsWithin P (inside f.1 (do f.2.write (← v.field f.1)))) :
    FailsWithin P (writeFields fields v) := by
  induction fields with
  | nil => exact failsWithin_ok _
  | cons f fields ih =>
    rw [List.forall_mem_cons] at h
    rw [writeFields]
    exact h.1.bind fun _ _ => (ih h.2).bind fun _ _ => failsWithin_ok _

/-- A loop over items with their positions is explained item by item. -/
theorem failsWithin_mapM_zipIdx {α : Type} {P : StrictError → Prop} {f : Value → Except Failure α}
    {items : List Value}
    (h : ∀ i x, items[i]? = some x → FailsWithin P (inside (indexSegment i) (f x))) :
    FailsWithin P (items.zipIdx.mapM fun (x, i) => inside (indexSegment i) (f x)) :=
  failsWithin_mapM fun x hx => h x.2 x.1 (List.mem_zipIdx_iff_getElem?.1 hx)

/-- Encoded entries are arranged and counted, or refused. -/
theorem failsWithin_entries {α β : Type} {c : Codec} {v : Value} {b : Bounds}
    {entries : List (Octets × α)} {f : List (Octets × α) → Except Failure β}
    (h : ∀ cause, b.RefusesEntries (entries.map Prod.fst) cause → c.Refuses v cause)
    (hf : ∀ sorted, sorted.Perm entries → FailsWithin (Explained c v) (f sorted)) :
    FailsWithin (Explained c v)
      (do let sorted ← ascending entries; b.checkEntries sorted.length; f sorted) := by
  refine (failsWithin_explained (failsBare_ascending _) fun cause hcause => ?_).bind
    fun sorted hsorted => ?_
  · obtain ⟨octets, hoctets, heq⟩ := ascending_eq_error_iff.1 hcause
    cases heq
    exact h _ (.inl ⟨octets, hoctets, rfl⟩)
  · obtain ⟨hperm, hlt⟩ := ascending_eq_ok.1 hsorted
    refine (failsWithin_explained (b.failsBare_checkEntries _) fun cause hcause => ?_).bind
      fun _ _ => hf sorted hperm
    obtain ⟨hn, heq⟩ := checkEntries_eq_error.1 hcause
    cases heq
    have hlength : sorted.length = (entries.map Prod.fst).length := by
      rw [hperm.length_eq, List.length_map]
    have hnodup : (entries.map Prod.fst).Nodup := (hperm.map Prod.fst).nodup_iff.1 hlt.nodup
    rw [hlength] at hn ⊢
    exact h _ (.inr ⟨hnodup, hn, rfl⟩)

section

variable {item key value : Codec} (v : Value)
  (hitem : ∀ v, FailsWithin (Explained item v) (item.write v))
  (hkey : ∀ v, FailsWithin (Explained key v) (key.write v))
  (hvalue : ∀ v, FailsWithin (Explained value v) (value.write v))

include hitem

theorem explained_list (b : Bounds) (label : Option String) :
    FailsWithin (Explained (list item b label) v) ((list item b label).write v) := by
  rw [write]
  refine v.failsWithin_iterate.bind fun items hitems => ?_
  rw [Value.iterate_eq_ok] at hitems
  refine (failsWithin_explained (b.failsBare_checkEntries _) fun cause h => ?_).bind fun _ _ =>
    (failsWithin_mapM_zipIdx fun i x hx => ?_).bind fun _ _ => failsWithin_ok _
  · obtain ⟨hn, hcause⟩ := checkEntries_eq_error.1 h
    cases hcause
    exact ⟨items, hitems, hn, rfl⟩
  · exact (Enters.list hitems hx).failsWithin_inside (hitem x)

theorem explained_array (count : Nat) :
    FailsWithin (Explained (array item count) v) ((array item count).write v) := by
  rw [write]
  refine v.failsWithin_iterate.bind fun items hitems => ?_
  rw [Value.iterate_eq_ok] at hitems
  split
  · rename_i hn
    rintro e ⟨⟩
    exact Refuses.explained ⟨items, hitems, hn, rfl⟩
  · refine (failsWithin_mapM_zipIdx fun i x hx => ?_).bind fun _ _ => failsWithin_ok _
    exact (Enters.array hitems hx).failsWithin_inside (hitem x)

theorem explained_set (b : Bounds) (form : SetForm) (label : Option String) :
    FailsWithin (Explained (set item b form label) v) ((set item b form label).write v) := by
  rw [write]
  refine v.failsWithin_iterate.bind fun items hitems => ?_
  rw [Value.iterate_eq_ok] at hitems
  have helement : ∀ x ∈ items, FailsWithin (Explained (set item b form label) v)
      (insideEntry x (item.write x)) := fun x hx => failsWithin_insideEntry fun shown hshown =>
    (hitem x).imp fun e he => (Enters.element hitems hx hshown).explained he
  refine (failsWithin_mapM fun x hx => (helement x hx).bind fun _ _ => failsWithin_ok _).bind
    fun entries hentries => failsWithin_entries (fun cause h => ?_) fun _ _ => failsWithin_ok _
  obtain ⟨ps, rfl, rfl, hps⟩ := mapM_eq_ok.1 hentries
  refine ⟨ps.map fun q => (q.1, q.2.1), ?_, List.forall_mem_map.2 fun q hq => ?_, ?_⟩
  · simpa [Function.comp_def] using hitems
  · obtain ⟨octets, ho, hq'⟩ := bind_eq_ok.1 (hps q hq)
    rw [insideEntry_eq_ok.1 ho, ← pure_eq_ok.1 hq']
  · simpa [Function.comp_def] using h

omit hitem
include hkey hvalue

theorem explained_map (b : Bounds) (form : MapForm) (label : Option String) :
    FailsWithin (Explained (map key value b form label) v) ((map key value b form label).write v) := by
  rw [write]
  have hmap : FailsWithin (Explained (map key value b form label) v) (v.mapItems form) :=
    failsWithin_explained (v.failsBare_mapItems form) fun cause h => Or.inl h
  refine hmap.bind fun items hitems => ?_
  have hkeys : ∀ e ∈ items, ∀ x, e.unpair = .ok x →
      FailsWithin (Explained (map key value b form label) v) (insideEntry x.1 (key.write x.1)) :=
    fun e he x hx => failsWithin_insideEntry fun shown hshown =>
      (hkey x.1).imp fun _ hexplained => (Enters.key hitems he hx hshown).explained hexplained
  refine (failsWithin_mapM fun e he => e.failsWithin_unpair.bind fun x hx =>
    (hkeys e he x hx).bind fun _ _ => failsWithin_ok _).bind fun entries hentries => ?_
  obtain ⟨ps, rfl, rfl, hps⟩ := mapM_eq_ok.1 hentries
  have hparts : ∀ q ∈ ps, q.1.unpair = .ok q.2.2 ∧ key.write q.2.2.1 = .ok q.2.1 := by
    intro q hq
    obtain ⟨x, hx, h⟩ := bind_eq_ok.1 (hps q hq)
    obtain ⟨octets, ho, heq⟩ := bind_eq_ok.1 h
    rw [← pure_eq_ok.1 heq]
    exact ⟨hx, insideEntry_eq_ok.1 ho⟩
  refine failsWithin_entries (fun cause h => Or.inr ?_) fun sorted hperm =>
    (failsWithin_mapM fun x hx => FailsWithin.bind ?_ fun _ _ => failsWithin_ok _).bind
      fun _ _ => failsWithin_ok _
  · refine ⟨ps.map fun q => (q.1, q.2.1), ?_, List.forall_mem_map.2 fun q hq => ?_, ?_⟩
    · simpa [Function.comp_def] using hitems
    · exact ⟨q.2.2, hparts q hq⟩
    · simpa [Function.comp_def] using h
  · -- the values are written in ascending order of the keys, each as a part of an item
    obtain ⟨q, hq, rfl⟩ := List.mem_map.1 (hperm.mem_iff.1 hx)
    exact failsWithin_insideEntry fun shown hshown => (hvalue q.2.2.2).imp fun _ hexplained =>
      (Enters.value hitems (List.mem_map_of_mem hq) (hparts q hq).1 hshown).explained hexplained

end

theorem explained_tuple {cs : List Codec} (v : Value)
    (h : ∀ c ∈ cs, ∀ v, FailsWithin (Explained c v) (c.write v)) :
    FailsWithin (Explained (tuple cs) v) ((tuple cs).write v) := by
  rw [write]
  refine v.failsWithin_iterate.bind fun items hitems => ?_
  rw [Value.iterate_eq_ok] at hitems
  split
  · rename_i hn
    rintro e ⟨⟩
    exact Refuses.explained ⟨items, hitems, hn, rfl⟩
  · refine failsWithin_writeItems fun i c x hc hx => ?_
    rw [Nat.zero_add]
    exact (Enters.tuple hitems hc hx).failsWithin_inside (h c (List.mem_of_getElem? hc) x)

/-- A field that is absent is explained at the segment of the field. -/
theorem Lacks.explained {c : Codec} {v : Value} {field : String} {cause : Cause}
    (h : c.Lacks v field cause) : Explained c v (StrictError.within field ⟨cause, []⟩) := by
  refine ⟨[], c, v, .here, .inr ⟨field, ?_, ?_⟩⟩
  · rwa [StrictError.cause_within]
  · rw [StrictError.path_within_eq_filter, List.append_nil, List.nil_append]

theorem explained_struct {name : String} {fields : List (String × Codec)} {form : StructForm}
    {wrapped : Bool} (v : Value) (h : ∀ f ∈ fields, ∀ v, FailsWithin (Explained f.2 v) (f.2.write v)) :
    FailsWithin (Explained (struct name fields form wrapped) v)
      ((struct name fields form wrapped).write v) := by
  rw [write]
  split
  · rename_i hbare
    cases fields with
    | nil => exact failsWithin_ok _
    | cons f rest =>
      rw [Bool.and_eq_true, Bool.not_eq_true'] at hbare
      obtain ⟨rfl, hbare⟩ := hbare
      exact (Enters.bare hbare).failsWithin_inside (h f (List.mem_cons_self ..) v)
  · rename_i hbare
    rw [Bool.not_eq_true] at hbare
    refine failsWithin_writeFields fun f hf => failsWithin_inside ?_
    refine FailsWithin.bind (fun e he => ?_) fun x hx => ?_
    · obtain ⟨cause, path⟩ := e
      obtain rfl : path = [] := (v.failsBare_field f.1 _ he).path_eq
      exact (Lacks.mk hbare hf he).explained
    · exact (h f hf x).imp fun e he => (Enters.field hbare hf hx).explained he

theorem explained_union {name : String} {variants : List (Nat × String × Codec)} (v : Value)
    (h : ∀ x ∈ variants, ∀ v, FailsWithin (Explained x.2.2 v) (x.2.2.write v)) :
    FailsWithin (Explained (union name variants) v) ((union name variants).write v) := by
  rw [write.eq_def]
  dsimp only
  split
  · rename_i variant payload
    rw [writeNamed_eq]
    split
    · rename_i x hx
      exact ((Enters.tagged hx).failsWithin_inside
        (h x (List.mem_of_find?_eq_some hx) payload)).bind fun _ _ => failsWithin_ok _
    · rename_i hnone
      exact failsWithin_fail (Refuses.explained ⟨hnone, rfl⟩)
  · rename_i hv
    rw [writeAccepted_eq]
    split
    · rename_i x hx
      exact ((Enters.accepted hv hx).failsWithin_inside
        (h x (List.mem_of_find?_eq_some hx) v)).bind fun _ _ => failsWithin_ok _
    · rename_i hnone
      refine failsWithin_fail (Refuses.explained ?_)
      rw [Refuses]
      · exact ⟨hnone, rfl⟩
      · exact hv

theorem explained_option {inner : Codec} (v : Value)
    (h : FailsWithin (Explained inner v) (inner.write v)) :
    FailsWithin (Explained (option inner) v) ((option inner).write v) := by
  rw [write.eq_def]
  dsimp only
  split
  · exact failsWithin_ok _
  · rename_i hv
    exact (h.imp fun e he => (Enters.present hv).explained he).bind fun _ _ => failsWithin_ok _

/-- Every strict error of the writer is explained. -/
theorem explained_write (c : Codec) (v : Value) : FailsWithin (Explained c v) (c.write v) := by
  induction c using childInduction generalizing v with | h c ih => ?_
  cases c with
  | unit | bool | unicode | uint | sint | byteArray | id | bytes | ascii | enumeration =>
    exact failsWithin_explained (failsBare_write (by trivial) v) fun _ h => h
  | list item b label => exact explained_list v (ih item (List.mem_singleton.2 rfl)) b label
  | set item b form label => exact explained_set v (ih item (List.mem_singleton.2 rfl)) b form label
  | map key value b form label =>
    exact explained_map v (ih key (List.mem_cons_self ..)) (ih value (by simp [children])) b form label
  | array item count => exact explained_array v (ih item (List.mem_singleton.2 rfl)) count
  | option inner => exact explained_option v (ih inner (List.mem_singleton.2 rfl) v)
  | tuple cs => exact explained_tuple v ih
  | struct name fields form wrapped =>
    exact explained_struct v fun f hf => ih f.2 (List.mem_map_of_mem hf)
  | union name variants => exact explained_union v fun x hx => ih x.2.2 (List.mem_map_of_mem hx)

/-- Errors point at their cause: from the codec and the value that are written a chain of steps
descends to a codec that refuses its value by its own check with the same cause, or to a struct whose
value lacks a field. The field of the error joins the segments of the steps, and of a field that is
absent, leaving out those that are empty. -/
theorem error_at_cause {c : Codec} {v : Value} {e : StrictError}
    (h : c.write v = .error (.strict e)) :
    ∃ segments c' v' last, Descends c v segments c' v' ∧
      ((last = [] ∧ c'.Refuses v' e.cause ∧ c'.write v' = fail e.cause) ∨
        ∃ field, last = [field] ∧ c'.Lacks v' field e.cause) ∧
      e.path = (segments ++ last).filter (· ≠ "") ∧
      e.field = StrictError.joinSegments ((segments ++ last).filter (· ≠ "")) := by
  obtain ⟨segments, c', v', hdescends, hend⟩ := explained_write c v e h
  rcases hend with ⟨hrefuses, hpath⟩ | ⟨field, hlacks, hpath⟩
  · rw [← List.append_nil segments] at hpath
    exact ⟨segments, c', v', [], hdescends, .inl ⟨rfl, hrefuses, hrefuses.write_eq⟩, hpath,
      hpath ▸ e.field_eq_joinSegments⟩
  · exact ⟨segments, c', v', [field], hdescends, .inr ⟨field, rfl, hlacks⟩, hpath,
      hpath ▸ e.field_eq_joinSegments⟩

/-- An integer that does not fit is the cause of an error at its position in a variant. -/
theorem error_at_cause_too_large :
    (union "U" [(0, "xs", list (uint 1) .tiny none)]).write (.tagged "xs" (.list [.int 1, .int 300])) =
        .error (.strict ⟨.doesNotFit 300 "U8", ["xs", "[1]"]⟩) ∧
      ∃ segments c' v' last,
        Descends (union "U" [(0, "xs", list (uint 1) .tiny none)])
          (.tagged "xs" (.list [.int 1, .int 300])) segments c' v' ∧
        ((last = [] ∧ c'.Refuses v' (.doesNotFit 300 "U8") ∧
            c'.write v' = fail (.doesNotFit 300 "U8")) ∨
          ∃ field, last = [field] ∧ c'.Lacks v' field (.doesNotFit 300 "U8")) ∧
        ["xs", "[1]"] = (segments ++ last).filter (· ≠ "") ∧
        StrictError.field ⟨.doesNotFit 300 "U8", ["xs", "[1]"]⟩ =
          StrictError.joinSegments ((segments ++ last).filter (· ≠ "")) :=
  ⟨rfl, error_at_cause (e := ⟨.doesNotFit 300 "U8", ["xs", "[1]"]⟩) rfl⟩

/-! ## Mismatches -/

/-- No refusal is a mismatch of identifiers, which only checks can find. -/
theorem Refuses.kind_ne {c : Codec} {v : Value} {cause : Cause} (h : c.Refuses v cause) :
    cause.kind ≠ .identifierMismatch := by
  have hentries : ∀ {b : Bounds} {encodings : List Octets}, b.RefusesEntries encodings cause →
      cause.kind ≠ .identifierMismatch := by
    rintro b encodings (⟨_, _, rfl⟩ | ⟨_, _, rfl⟩) <;> nofun
  cases c with
  | unit | bool | unicode | uint | sint | byteArray | id | bytes | ascii | enumeration =>
    exact (failsBare_write (by trivial) v _ h).kind_ne
  | list item b label | array item count | tuple cs =>
    obtain ⟨_, _, _, rfl⟩ := h
    nofun
  | set item b form label =>
    obtain ⟨_, _, _, h⟩ := h
    exact hentries h
  | map key value b form label =>
    rcases h with h | ⟨_, _, _, h⟩
    · exact (v.failsBare_mapItems form _ h).kind_ne
    · exact hentries h
  | option | struct => exact h.elim
  | union name variants =>
    cases v with
    | tagged variant payload =>
      obtain ⟨-, rfl⟩ := h
      nofun
    | _ =>
      obtain ⟨-, rfl⟩ := h
      nofun

/-- A computation that **never mismatches** does not fail with a mismatch of identifiers. -/
abbrev NeverMismatches {α : Type} (x : Except Failure α) : Prop :=
  FailsWithin (fun e => e.kind ≠ .identifierMismatch) x

/-- Writing a value never mismatches. -/
theorem neverMismatches_write (c : Codec) (v : Value) : NeverMismatches (c.write v) := by
  intro e he
  obtain ⟨_, c', v', -, ⟨hrefuses, -⟩ | ⟨field, hlacks, -⟩⟩ := explained_write c v e he
  · exact hrefuses.kind_ne
  · obtain ⟨-, -, hlacks⟩ := hlacks
    exact (v'.failsBare_field _ _ hlacks).kind_ne

end Codec

end StrictContract
