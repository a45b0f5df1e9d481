import StrictContract.Proofs.Contract.Matching
import StrictContract.Proofs.Contract.Returning
import StrictContract.Proofs.Contract.Views

/-! # Redecoding — verification depends on the canonical bytes only

What is decoded from the bytes of a consignment differs from the consignment in the order of tables
and sets, and in the values that its numbers and byte strings were supplied as. Part by part, a value
is **read back** as another one when it has an encoding, the other one is read, and both are alike.
Parts that are read back match, so the check of a consignment reports the same before and after. -/

namespace StrictContract

open Codec

namespace Codec

open Value (Alike)

/-! ## Values that are read back -/

/-- A value is **read back** as another one under a codec: it has an encoding, the other one is read,
and both are alike. -/
structure ReadBack (c : Codec) (v w : Value) : Prop where
  written : ∃ p, c.write v = .ok p
  readable : c.Readable w
  alike : v.Alike w

/-- What is read back is written as it was. -/
theorem ReadBack.write_eq {c : Codec} {v w : Value} (h : c.ReadBack v w) (hc : Canonical c)
    (hv : Recovers c v) : c.write v = c.write w := by
  obtain ⟨p, hp⟩ := h.written
  obtain ⟨q, hq⟩ := h.readable
  obtain ⟨u, hu, halike⟩ := hv p hp
  obtain rfl := hc.separates hu hq (halike.symm.trans h.alike)
  rw [hp, hc.write_eq_ok hq]

/-- Fields are read back one by one. -/
def ReadBackFields :
    List (String × Codec) → List (String × Value) → List (String × Value) → Prop
  | [], _, _ => True
  | (_, c) :: fields, (_, v) :: vs, (_, w) :: ws => c.ReadBack v w ∧ ReadBackFields fields vs ws
  | _ :: _, _, _ => False

/-- Fields that are written, and read as alike fields, are read back. -/
theorem readBackFields_of_alike {fields : List (String × Codec)} {vs ws : List (String × Value)}
    {v : Value} (hnames : vs.map Prod.fst = fields.map Prod.fst)
    (hfield : ∀ x ∈ vs, v.field x.1 = .ok x.2) {p : Octets} (hp : writeFields fields v = .ok p)
    (hws : ReadableFields fields ws) (h : Alike.Fields vs ws) : ReadBackFields fields vs ws := by
  induction fields generalizing vs ws p with
  | nil => trivial
  | cons f fields ih =>
    obtain ⟨w, hw, ws, hrest, rfl⟩ := readableFields_cons.1 hws
    cases vs with
    | nil => exact h.elim
    | cons x vs =>
      obtain ⟨-, hxw, h⟩ := h
      obtain ⟨hname, hnames⟩ := List.cons.inj hnames
      rw [List.forall_mem_cons] at hfield
      rw [writeFields] at hp
      obtain ⟨q, hq, hp⟩ := bind_eq_ok.1 hp
      obtain ⟨t, ht, hp⟩ := bind_eq_ok.1 hp
      obtain ⟨y, hy, hq⟩ := bind_eq_ok.1 (inside_eq_ok.1 hq)
      rw [← hname, hfield.1] at hy
      cases hy
      exact ⟨⟨⟨q, hq⟩, hw, hxw⟩, ih hnames hfield.2 ht hrest h⟩

/-- Records are read back field by field. -/
theorem ReadBack.fields {name type : String} {fields : List (String × Codec)} {wrapped : Bool}
    {vs ws : List (String × Value)}
    (h : (struct name fields (.record type) wrapped).ReadBack (.record type vs) (.record type ws))
    (htype : type ≠ "Lib") (hnodup : (fields.map Prod.fst).Nodup)
    (hnames : vs.map Prod.fst = fields.map Prod.fst) : ReadBackFields fields vs ws := by
  obtain ⟨p, hp⟩ := h.written
  rw [write_record] at hp
  obtain ⟨ws', hws, hrecord⟩ := readable_record.1 h.readable
  obtain ⟨-, rfl⟩ := Value.record.inj hrecord
  exact readBackFields_of_alike hnames (fun x hx => field_record (hnames ▸ hnodup) hx) hp hws
    ((Alike.record_iff htype).1 h.alike).2

/-- A record is read back by a union of records as a record of the same type, by its variant. -/
theorem ReadBack.variant {name type type' : String} {variants : List (Nat × String × Codec)}
    {vs ws : List (String × Value)} (hvariants : RecordVariants variants)
    (h : (union name variants).ReadBack (.record type vs) (.record type' ws)) :
    type = type' ∧ ∃ x ∈ variants, recordType? x.2.2 = some type ∧
      x.2.2.ReadBack (.record type vs) (.record type' ws) := by
  obtain ⟨p, hp⟩ := h.written
  rw [write_union_record] at hp
  obtain ⟨x, hx, htype, q, hq, -⟩ := hvariants.writeAccepted_eq_ok.1 hp
  obtain ⟨y, hy, t, ht⟩ := (readable_union hvariants).1 h.readable
  obtain ⟨type'', hlib, htype'⟩ := hvariants.typed y hy
  obtain ⟨ws', hrecord⟩ := ht.exists_record htype'
  obtain ⟨rfl, rfl⟩ := Value.record.inj hrecord
  obtain ⟨rfl, -⟩ := (Alike.record_iff hlib).1 h.alike.symm
  obtain rfl := hvariants.eq_of_type hx hy (htype.trans htype'.symm)
  exact ⟨rfl, x, hx, htype, ⟨q, hq⟩, ⟨t, ht⟩, h.alike⟩

/-- Sequences are read back item by item. -/
theorem ReadBack.items {α : Type} {item : Codec} {b : Bounds} {label : Option String}
    {f : α → Value} {as bs : List α}
    (h : (list item b label).ReadBack (.tuple (as.map f)) (.tuple (bs.map f))) :
    List.Forall₂ (fun a b => item.ReadBack (f a) (f b)) as bs := by
  obtain ⟨p, hp⟩ := h.written
  obtain ⟨xs, hv, -, hxs, -⟩ := write_list_eq_ok.1 hp
  have hv : as.map f = xs.map Prod.fst := by simpa [Value.items?] using hv
  have hreadable := (readable_list h.readable).2
  obtain ⟨zs, hfst, hsnd, hzs⟩ := h.alike.tuple_left
  have hsnd := Value.tuple.inj hsnd
  suffices hpairs : List.Forall₂ item.ReadBack (as.map f) (bs.map f) by
    rwa [List.forall₂_map_left_iff, List.forall₂_map_right_iff] at hpairs
  rw [hsnd] at hreadable ⊢
  rw [hfst] at hv ⊢
  rw [List.forall₂_map_left_iff, List.forall₂_map_right_iff, List.forall₂_same]
  intro z hz
  have hwritten : ∀ v ∈ xs.map Prod.fst, ∃ q, item.write v = .ok q :=
    List.forall_mem_map.2 fun x hx => ⟨_, hxs x hx⟩
  exact ⟨hwritten _ (hv ▸ List.mem_map_of_mem hz), hreadable _ (List.mem_map_of_mem hz), hzs z hz⟩

end Codec

/-! ## Tables that are read back -/

section

variable {κ α : Type} [DecidableEq κ] {f : κ → Value} {g : α → Value} {t u : Table κ α}
  (hf : ∀ a b, (f a).Alike (f b) → a = b)

include hf

/-- The tables of alike mappings have alike values under the same keys. -/
theorem Table.agrees_of_alike (h : (t.mapping f g).Alike (u.mapping f g)) :
    t.Agrees (fun a b => (g a).Alike (g b)) u := by
  intro k
  cases ha : t.get? k with
  | some a =>
    obtain ⟨b, hb, hab⟩ := Table.exists_get?_of_alike hf h ha
    rw [hb]
    exact .some hab
  | none =>
    cases hb : u.get? k with
    | none => exact .none
    | some b =>
      obtain ⟨a, ha', -⟩ := Table.exists_get?_of_alike hf h.symm hb
      rw [ha] at ha'
      cases ha'

/-- Mappings of tables are read back value by value. -/
theorem Codec.ReadBack.agrees {key value : Codec} {b : Bounds} {label : Option String}
    (h : (map key value b .mapping label).ReadBack (t.mapping f g) (u.mapping f g))
    (hkey : Keyed key) : t.Agrees (fun a b => value.ReadBack (g a) (g b)) u := by
  obtain ⟨p, hp⟩ := h.written
  obtain ⟨es, fs, hentries, hes, -, -, -, -⟩ := write_mapping_eq_ok.1 hp
  obtain ⟨-, hreadable⟩ := readable_mapping hkey h.readable
  rw [List.forall_mem_map] at hreadable
  intro k
  rcases (Table.agrees_of_alike hf h.alike).none_or_some k with ⟨ha, hb⟩ | ⟨a, b, ha, hb, hab⟩
  · rw [ha, hb]
    exact .none
  · rw [ha, hb]
    have hmem := List.mem_map_of_mem (f := fun e : κ × α => (f e.1, g e.2)) (Table.mem_entries.2 ha)
    rw [hentries] at hmem
    obtain ⟨e, he, heq⟩ := List.mem_map.1 hmem
    have hvalue : e.2.1 = g a := (Prod.ext_iff.1 heq).2
    refine .some ⟨⟨_, hvalue ▸ (hes e he).2⟩, ?_, hab⟩
    exact (hreadable _ (Table.mem_entries.2 hb)).2

end

/-! ## Operations -/

namespace Value.Alike

/-- Byte strings are alike when they are equal. -/
theorem bytes_iff {o o' : Octets} : Alike (.bytes o) (.bytes o') ↔ o = o' := by
  constructor
  · intro h
    exact (Option.some.inj (h.octets_left rfl)).symm
  · rintro rfl
    exact refl _

/-- Optional values are alike when both are absent, or both are there and alike. -/
theorem eq_of_ofOption {α : Type} {f : α → Value} (hf : ∀ a b, Alike (f a) (f b) → a = b)
    (hnull : ∀ a, f a ≠ .null) {x y : Option α} (h : Alike (.ofOption f x) (.ofOption f y)) :
    x = y := by
  cases x with
  | none =>
    cases y with
    | none => rfl
    | some b => exact absurd h.null_left (hnull b)
  | some a =>
    cases y with
    | none => exact absurd h.symm.null_left (hnull a)
    | some b => exact congrArg some (hf a b h)

/-- Sets of images are alike only when the elements are rearrangements of each other. -/
theorem perm_of_set {α : Type} {f : α → Value} (hf : ∀ a b, Alike (f a) (f b) → a = b)
    {as bs : List α} (h : Alike (.set (as.map f)) (.set (bs.map f))) : as.Perm bs := by
  obtain ⟨ws, xs, hws, hfst, hsnd, hxs⟩ := h.set_left
  rw [← Value.set.inj hws] at hsnd
  obtain ⟨as', has', hmapa⟩ := exists_perm_of_perm_map hfst.symm
  obtain ⟨bs', hbs', hmapb⟩ := exists_perm_of_perm_map hsnd.symm
  have heq : as' = bs' := eq_of_map_eq hf hxs hmapa.symm hmapb.symm
  exact has'.symm.trans (heq ▸ hbs')

end Value.Alike

/-- A byte string that is read back matches. -/
theorem Value.stateMatches_of_readBack {b : Bounds} {label : Option String} {v w : Value}
    (h : (Codec.bytes b label).ReadBack v w) : v.StateMatches w := by
  obtain ⟨p, hp⟩ := h.written
  rw [write, bind_eq_ok] at hp
  obtain ⟨octets, hoctets, -⟩ := hp
  have hv := octets_eq_ok.1 hoctets
  have hw := h.alike.octets_left hv
  have hdecode : ∀ {x : Value}, x.octets? = some octets → ∀ c : Codec,
      c.decodeState x = c.decode octets := by
    intro x hx c
    cases x with
    | null | text | broken => cases hx
    | _ =>
      unfold Codec.decodeState
      rw [hx]
  intro c
  rw [hdecode hv, hdecode hw]

/-- Assignments that are read back match. -/
theorem Assignment.matches_of_readBack {kind : StateKind} {a b : Assignment}
    (h : (codec kind).ReadBack a.toValue b.toValue) : a.Matches kind b := by
  have hstate : ∀ {v w : Value}, kind.codec.ReadBack v w → kind = .structured →
      v.StateMatches w := by
    rintro v w hvw rfl
    exact Value.stateMatches_of_readBack hvw
  cases a with
  | revealed x v =>
    cases b with
    | revealed y w =>
      obtain ⟨-, z, hz, htype, hread⟩ := ReadBack.variant (recordVariants kind) h
      simp only [variants, codec, List.mem_cons, List.not_mem_nil, or_false] at hz
      rcases hz with rfl | rfl
      · simp [recordType?] at htype
      · obtain ⟨hseal, hvw, -⟩ := hread.fields (by decide) (by simp) rfl
        obtain ⟨-, -, htransaction, -⟩ := (Value.Alike.record_iff (by decide)).1 hseal.alike
        have hseals := Value.Alike.eq_of_ofOption (fun _ _ => Value.Alike.id_iff.1)
          (fun _ h => by cases h) htransaction
        exact .revealed hseals (hstate hvw)
    | confidential secret w =>
      obtain ⟨htype, -⟩ := (Value.Alike.record_iff (by decide)).1 h.alike
      exact absurd htype (by decide)
  | confidential secret v =>
    cases b with
    | revealed y w =>
      obtain ⟨htype, -⟩ := (Value.Alike.record_iff (by decide)).1 h.alike
      exact absurd htype (by decide)
    | confidential secret' w =>
      obtain ⟨-, z, hz, htype, hread⟩ := ReadBack.variant (recordVariants kind) h
      simp only [variants, codec, List.mem_cons, List.not_mem_nil, or_false] at hz
      rcases hz with rfl | rfl
      · obtain ⟨hsecret, hvw, -⟩ := hread.fields (by decide) (by simp) rfl
        obtain rfl := Value.Alike.id_iff.1 hsecret.alike
        exact .confidential (hstate hvw)
      · simp [recordType?] at htype

/-- Assignments of one type that are read back match. -/
theorem Assignments.matches_of_readBack {a b : Assignments} (h : codec.ReadBack a.toValue b.toValue) :
    a.Matches b := by
  obtain ⟨hname, y, hy, htype, hread⟩ := ReadBack.variant recordVariants h
  have hkind := recordName_inj hname
  obtain ⟨⟨tag, kind⟩, -, rfl⟩ := List.mem_map.1 hy
  obtain rfl := recordName_inj (Option.some.inj htype)
  rw [← hkind] at hread
  have hlib : recordName a.kind ≠ "Lib" := by
    cases a.kind <;> decide
  obtain ⟨hitems, -⟩ := hread.fields hlib (by simp) rfl
  exact ⟨hkind, hitems.items.imp fun x y => Assignment.matches_of_readBack⟩

/-- States of operations that are read back match. -/
theorem OperationState.matches_of_readBack {s t : OperationState}
    (hmetadata : metadataCodec.ReadBack s.metadataValue t.metadataValue)
    (hglobals : globalsCodec.ReadBack s.globalsValue t.globalsValue)
    (hassignments : assignmentsCodec.ReadBack s.assignmentsValue t.assignmentsValue) :
    s.Matches t where
  metadata := (ReadBack.agrees (fun _ _ => Value.Alike.int_iff.1) hmetadata (keyed_uint 2)).imp
    fun _ _ => Value.stateMatches_of_readBack
  globals := (ReadBack.agrees (fun _ _ => Value.Alike.int_iff.1) hglobals (keyed_uint 2)).imp
    fun _ _ h => by
      have hitems := ReadBack.items (f := id) (by simpa using h)
      exact hitems.imp fun _ _ => Value.stateMatches_of_readBack
  assignments := (ReadBack.agrees (fun _ _ => Value.Alike.int_iff.1) hassignments (keyed_uint 2)).imp
    fun _ _ => Assignments.matches_of_readBack

/-- Geneses that are read back match and have the same id. -/
theorem Genesis.matches_of_readBack {g h : Genesis} (hgh : codec.ReadBack g.toValue h.toValue) :
    g.schemaId = h.schemaId ∧ g.state.Matches h.state ∧
      (Operation.genesis g).opId = (Operation.genesis h).opId := by
  obtain ⟨p, hp⟩ := hgh.written
  have hq := hgh.write_eq canonical_codec g.recovers_codec
  rw [hp] at hq
  obtain ⟨hschema, -, -, -, -, hmetadata, hglobals, hassignments, -⟩ :=
    ReadBack.fields hgh (by decide) (by decide) rfl
  refine ⟨Value.Alike.id_iff.1 hschema.alike,
    OperationState.matches_of_readBack hmetadata hglobals hassignments, ?_⟩
  rw [Operation.opId, Operation.opId, Operation.encode_genesis_eq_ok.2 ⟨p, hp, rfl⟩,
    Operation.encode_genesis_eq_ok.2 ⟨p, hq.symm, rfl⟩]

/-- The number of a type is read back as an integer, which is shown like it. -/
theorem exists_int_of_readBack {size : Nat} {v w : Value} (h : (Codec.uint size).ReadBack v w) :
    ∃ n, w = .int n ∧ v.number? = some n ∧ v.display = (Value.int n).display := by
  obtain ⟨p, hp⟩ := h.written
  obtain ⟨n, rfl⟩ := reads_int_of_uint _ _ h.readable
  have hnumber := h.alike.symm.number_left rfl
  refine ⟨n, rfl, hnumber, ?_⟩
  rw [write, writeUInt] at hp
  obtain ⟨m, hm, -⟩ := bind_eq_ok.1 hp
  cases v with
  | int k =>
    obtain rfl := Option.some.inj hnumber
    rfl
  | member decl name tag =>
    obtain rfl := Option.some.inj hnumber
    rfl
  | _ => cases hm

/-- Transitions that are read back match and have the same id, if their types are keys. -/
theorem Transition.matches_of_readBack {t u : Transition} (h : codec.ReadBack t.toValue u.toValue)
    (hkey : t.type.isKey = true) : t.opId = u.opId ∧ t.Matches u := by
  obtain ⟨p, hp⟩ := h.written
  have hq := h.write_eq canonical_codec t.recovers_codec
  rw [hp] at hq
  obtain ⟨hcontract, htype, -, hmetadata, hglobals, hinputs, hassignments, -⟩ :=
    ReadBack.fields h (by decide) (by decide) rfl
  obtain ⟨n, hint, hnumber, hdisplay⟩ := exists_int_of_readBack htype
  constructor
  · rw [opId, opId, Operation.opId, Operation.opId, Operation.encode_transition_eq_ok.2 ⟨p, hp, rfl⟩,
      Operation.encode_transition_eq_ok.2 ⟨p, hq.symm, rfl⟩]
  · exact {
      contractId := Value.Alike.id_iff.1 hcontract.alike
      isKey := by rw [hkey, hint]; rfl
      number := by rw [hnumber, hint]; rfl
      display := by rw [hdisplay, hint]
      inputs := Value.Alike.perm_of_set (fun _ _ => Opout.eq_of_alike) hinputs.alike
      state := OperationState.matches_of_readBack hmetadata hglobals hassignments }

/-! ## Schemas and type systems -/

/-- Bounds are alike when they are equal. -/
theorem Occurrences.eq_of_alike {o o' : Occurrences} (h : o.toValue.Alike o'.toValue) : o = o' := by
  obtain ⟨-, -, hmin, -, hmax, -⟩ := (Value.Alike.record_iff (by decide)).1 h
  cases o
  cases o'
  rw [Value.Alike.int_iff] at hmin hmax
  cases hmin
  cases hmax
  rfl

/-- Places of scripts are alike when they are equal. -/
theorem LibSite.eq_of_alike {a b : LibSite} (h : a.toValue.Alike b.toValue) : a = b := by
  obtain ⟨-, -, hlib, -, hposition, -⟩ := (Value.Alike.record_iff (by decide)).1 h
  cases a
  cases b
  rw [Value.Alike.id_iff] at hlib
  rw [Value.Alike.int_iff] at hposition
  cases hlib
  cases hposition
  rfl

/-- Alike shapes of operations have the same parts. -/
theorem OperationSchema.sameParts_of_alike {s t : OperationSchema} (h : s.toValue.Alike t.toValue) :
    s.SameParts t := by
  have hbounds : ∀ {a b : Table Int Occurrences},
      (a.toValue Occurrences.toValue).Alike (b.toValue Occurrences.toValue) → a.Agrees (· = ·) b :=
    fun hab => (Table.agrees_of_alike (fun _ _ => Value.Alike.int_iff.1) hab).imp
      fun _ _ => Occurrences.eq_of_alike
  have hsites : ∀ {x y : Option LibSite},
      (Value.ofOption LibSite.toValue x).Alike (.ofOption LibSite.toValue y) → x = y := fun hxy =>
    Value.Alike.eq_of_ofOption (fun _ _ => LibSite.eq_of_alike) (by simp [LibSite.toValue]) hxy
  obtain ⟨metadata, globals, inputs, assignments, validator⟩ := s
  obtain ⟨metadata', globals', inputs', assignments', validator'⟩ := t
  -- the shape of a genesis and that of a transition are records of different types
  cases inputs with
  | none =>
    cases inputs' with
    | none =>
      obtain ⟨-, -, hmetadata, -, hglobals, -, hassignments, -, hvalidator, -⟩ :=
        (Value.Alike.record_iff (by decide)).1 h
      exact ⟨hbounds hmetadata, hbounds hglobals, .none, hbounds hassignments, hsites hvalidator⟩
    | some =>
      obtain ⟨htype, -⟩ := (Value.Alike.record_iff (by decide)).1 h
      exact absurd htype (by decide)
  | some =>
    cases inputs' with
    | none =>
      obtain ⟨htype, -⟩ := (Value.Alike.record_iff (by decide)).1 h
      exact absurd htype (by decide)
    | some =>
      obtain ⟨-, -, hmetadata, -, hglobals, -, hinputs, -, hassignments, -, hvalidator, -⟩ :=
        (Value.Alike.record_iff (by decide)).1 h
      exact ⟨hbounds hmetadata, hbounds hglobals, .some (hbounds hinputs), hbounds hassignments,
        hsites hvalidator⟩

/-- Alike declarations of state match. -/
theorem StateSchema.matches_of_alike {s t : StateSchema} (h : s.toValue.Alike t.toValue) :
    s.Matches t := by
  cases s with
  | declarative =>
    cases t with
    | declarative => exact ⟨rfl, fun sid => Iff.rfl⟩
    | fungible | structured =>
      obtain ⟨htype, -⟩ := (Value.Alike.record_iff (by decide)).1 h
      exact absurd htype (by decide)
  | fungible amount =>
    cases t with
    | fungible amount' => exact ⟨rfl, by simp⟩
    | declarative | structured =>
      obtain ⟨htype, -⟩ := (Value.Alike.record_iff (by decide)).1 h
      exact absurd htype (by decide)
  | structured type =>
    cases t with
    | structured type' =>
      obtain ⟨-, -, hid, -⟩ := (Value.Alike.record_iff (by decide)).1 h
      obtain rfl := Value.Alike.id_iff.1 hid
      exact ⟨rfl, fun sid => Iff.rfl⟩
    | declarative | fungible =>
      obtain ⟨htype, -⟩ := (Value.Alike.record_iff (by decide)).1 h
      exact absurd htype (by decide)

/-- Schemas that are read back match. -/
theorem Schema.matches_of_readBack {s t : Schema} (h : codec.ReadBack s.toValue t.toValue) :
    s.Matches t := by
  have hkeys : ∀ k l : Int, (Value.int k).Alike (.int l) → k = l := fun _ _ => Value.Alike.int_iff.1
  obtain ⟨hname, hmeta, hglobal, howned, hgenesis, htransitions, -⟩ :=
    ReadBack.fields h (by decide) (by decide) rfl
  refine ⟨?_, ?_, ?_, ?_, OperationSchema.sameParts_of_alike hgenesis.alike, ?_⟩
  · obtain ⟨name, hread⟩ := reads_ascii _ _ _ _ _ hname.readable
    have halike := hname.alike.symm
    rw [← hread] at halike ⊢
    rw [halike.text_left]
  · refine (Table.agrees_of_alike hkeys hmeta.alike).imp fun d e hde => ?_
    obtain ⟨-, -, htype, -⟩ := (Value.Alike.record_iff (by decide)).1 hde
    exact Value.Alike.id_iff.1 htype
  · refine (Table.agrees_of_alike hkeys hglobal.alike).imp fun d e hde => ?_
    obtain ⟨-, -, htype, -, hmax, -⟩ := (Value.Alike.record_iff (by decide)).1 hde
    exact ⟨Value.Alike.id_iff.1 htype, Value.Alike.int_iff.1 hmax⟩
  · refine (Table.agrees_of_alike hkeys howned.alike).imp fun d e hde => ?_
    obtain ⟨-, -, hstate, -⟩ := (Value.Alike.record_iff (by decide)).1 hde
    exact StateSchema.matches_of_alike hstate
  · refine (Table.agrees_of_alike (g := transitionDetailsValue) hkeys htransitions.alike).imp
      fun d e hde => ?_
    obtain ⟨-, -, hshape, -⟩ := (Value.Alike.record_iff (by decide)).1 hde
    exact OperationSchema.sameParts_of_alike hshape

/-- Well-formed type systems that are read back match. -/
theorem TypeSystem.matches_of_readBack {ts ts' : TypeSystem} (hts : ts.WellFormed)
    (hts' : ts'.WellFormed) (h : codec.ReadBack ts.toValue ts'.toValue) : ts.Matches ts' := by
  obtain ⟨octets, hencode, hdecode⟩ := hts.exists_decode
  obtain ⟨octets', hencode', hdecode'⟩ := hts'.exists_decode
  -- both are encoded as the bytes from which their definitions are decoded in ascending order
  obtain rfl : octets = octets' := by
    have hwrite := h.write_eq canonical_codec hts.recovers
    rw [encode] at hencode hencode'
    rwa [hencode, hencode', Except.ok.injEq] at hwrite
  have hsorted : ts.sorted = ts'.sorted := by
    rwa [hdecode, Except.ok.injEq] at hdecode'
  refine matches_of_perm hts.nodup (ts.entries_sorted_perm.symm.trans ?_)
  rw [hsorted]
  exact ts'.entries_sorted_perm

/-! ## Bundles and consignments -/

/-- Bundles that are read back match, if the types of their transitions are keys. -/
theorem Bundle.matches_of_readBack {a b : Bundle} (h : codec.ReadBack a.toValue b.toValue)
    (hkeys : ∀ e ∈ a.known.entries, e.2.type.isKey = true) : a.Matches b := by
  obtain ⟨hinputMap, hknown, -⟩ := ReadBack.fields h (by decide) (by decide) rfl
  have hrecovers : Recovers inputMapCodec a.inputMapValue :=
    recovers_mapping Opout.keyed_codec Opout.recovers_codec (fun e _ => recovers_id _ _) _ _
  refine ⟨?_, ?_, ?_⟩
  · rw [bundleId, bundleId, hinputMap.write_eq canonical_inputMapCodec hrecovers]
  · exact (Table.agrees_of_alike (fun _ _ => Opout.eq_of_alike) hinputMap.alike).imp
      fun _ _ => Value.Alike.id_iff.1
  · have hread := ReadBack.agrees (fun _ _ => Value.Alike.id_iff.1) hknown (keyed_id _)
    refine hread.imp_of_mem fun e he u htu => ?_
    obtain ⟨hid, hmatches⟩ := Transition.matches_of_readBack htu (hkeys e he)
    exact ⟨congrArg _ hid, hmatches⟩

namespace Consignment

variable {c d : Consignment}

/-- A consignment that is read back matches the one that is read. -/
theorem matches_of_readBack (hschema : c.schema.Regular) (htypes : c.types.WellFormed)
    (htypes' : d.types.WellFormed) (hkeys : c.TypesAreKeys)
    (h : codec.ReadBack c.toValue d.readValue) : c.Matches d := by
  obtain ⟨-, -, hterminals, hgenesis, hbundles, hschemas, htypeSystems, -, -⟩ :=
    ReadBack.fields h (by decide) (by decide) rfl
  obtain ⟨-, -, -, -, -, -, -, -, -, -, -, -, -, -, -, -, hscripts, -⟩ :=
    (Value.Alike.record_iff (by decide)).1 (h.alike.trans d.alike_readValue.symm)
  obtain ⟨hreference, hstate, hgenesisId⟩ := Genesis.matches_of_readBack hgenesis
  refine ⟨?_, congrArg _ hgenesisId, hreference, hstate, Schema.matches_of_readBack hschemas,
    TypeSystem.matches_of_readBack htypes htypes' htypeSystems, ?_, ?_,
    Value.Alike.perm_of_set (fun _ _ => Value.Alike.bytes_iff.1) hscripts⟩
  · rw [Schema.schemaId, Schema.schemaId, Schema.encode, Schema.encode,
      hschemas.write_eq Schema.canonical_codec hschema.recovers]
  · refine ((List.forall₂_and_left ..).2 ⟨hkeys, hbundles.items⟩).imp fun v w hvw => ?_
    obtain ⟨-, hbundle, -⟩ := hvw.2.fields (by decide) (by decide) rfl
    exact Bundle.matches_of_readBack hbundle hvw.1
  · have hagrees := Table.agrees_of_alike (f := .id .bundle) (g := sealsValue)
      (fun _ _ => Value.Alike.id_iff.1) hterminals.alike
    exact hagrees.imp fun _ _ => Value.Alike.perm_of_set fun _ _ => Value.Alike.id_iff.1

/-- A consignment that is read back is encodable. -/
theorem encodable_of_readBack (h : codec.ReadBack c.toValue d.readValue) : c.Encodable := by
  obtain ⟨-, -, -, hgenesis, hbundles, hschema, -, -, -⟩ :=
    ReadBack.fields h (by decide) (by decide) rfl
  have hread : ∀ w ∈ c.bundles, ∃ b : Bundle, Bundle.codec.ReadBack w.bundle.toValue b.toValue := by
    intro w hw
    have hitems := hbundles.items
    obtain ⟨i, hi, rfl⟩ := List.getElem_of_mem hw
    have hvw := hitems.get hi (hitems.length_eq ▸ hi)
    obtain ⟨-, hbundle, -⟩ := hvw.fields (by decide) (by decide) rfl
    exact ⟨_, hbundle⟩
  refine ⟨hschema.written, hgenesis.written, fun w hw => ?_, fun w hw e he => ?_, h.written⟩
  · obtain ⟨b, hb⟩ := hread w hw
    obtain ⟨hinputMap, -, -⟩ := ReadBack.fields hb (by decide) (by decide) rfl
    exact hinputMap.written
  · obtain ⟨b, hb⟩ := hread w hw
    obtain ⟨-, hknown, -⟩ := ReadBack.fields hb (by decide) (by decide) rfl
    have hagrees := ReadBack.agrees (fun _ _ => Value.Alike.id_iff.1) hknown (keyed_id _)
    rcases hagrees.none_or_some e.1 with ⟨hnone, -⟩ | ⟨t, u, ht, -, htu⟩
    · rw [Table.mem_entries.1 he] at hnone
      cases hnone
    · rw [Table.mem_entries.1 he, Option.some.injEq] at ht
      exact ht ▸ htu.written

/-! ## Verification of what is decoded -/

/-- An encodable consignment is the same before and after it is read back, as far as its check and its
assembly go. -/
structure Restored (c d : Consignment) : Prop where
  encodable : c.Encodable
  encodable' : d.Encodable
  encode : c.encode = d.encode
  same : c.Matches d

/-- What is decoded from the bytes of a consignment restores it. -/
theorem exists_restored (hschema : c.schema.Regular) (htypes : c.types.WellFormed)
    (hkeys : c.TypesAreKeys) {octets : Octets} (h : c.encode = .ok octets) :
    ∃ d, decode octets = .ok d ∧ c.Restored d := by
  obtain ⟨v, hv, halike⟩ := recovers_codec hschema htypes octets h
  obtain ⟨d, hd, rfl⟩ := reads_codec ⟨octets, hv⟩
  have hdecode := decode_eq_ok.2 ⟨hd, hv⟩
  have hencode := encode_of_decode hdecode
  have hread : codec.ReadBack c.toValue d.readValue := ⟨⟨octets, h⟩, ⟨octets, hv⟩, halike⟩
  have hread' : codec.ReadBack d.toValue d.readValue :=
    ⟨⟨octets, hencode⟩, ⟨octets, hv⟩, d.alike_readValue⟩
  exact ⟨d, hdecode, encodable_of_readBack hread, encodable_of_readBack hread',
    h.trans hencode.symm, matches_of_readBack hschema htypes hd hkeys hread⟩

/-- Without faults a check finds what it finds otherwise. -/
theorem Encodable.findings_eq (h : c.Encodable) :
    c.findings = (fun found => (found, c.indexed)) <$> c.otherFindings c.indexed := by
  rw [findings, index_eq_ok_nil.2 ⟨h, rfl⟩, otherFindings]
  show (do
    let genesis ← c.genesisFindings c.indexed
    let bundles ← c.indexed.bundles.zipIdx.mapM fun x : IndexedBundle × Nat =>
      c.bundleFindings c.indexed x.1 x.2
    return ([] ++ genesis ++ bundles.flatten ++
      (c.terminalViolations c.indexed ++ c.scriptViolations), c.indexed)) = _
  cases c.genesisFindings c.indexed with
  | error e => rfl
  | ok genesis =>
    cases c.indexed.bundles.zipIdx.mapM fun x => c.bundleFindings c.indexed x.1 x.2 <;> rfl

/-- What is assembled of a consignment and of what restores it has the same identifiers. -/
theorem Restored.accepted?_eq (h : c.Restored d) : d.accepted? d.indexed =
    (c.accepted? c.indexed).map fun v => { v with consignment := d } := by
  have hconsignment : c.indexed.consignmentId = d.indexed.consignmentId := by
    show c.consignmentId.toOption = d.consignmentId.toOption
    rw [consignmentId, consignmentId, h.encode]
  have hschema : c.indexed.schemaId = d.indexed.schemaId := h.same.schemaId
  have hbundles : c.indexed.bundles.filterMap IndexedBundle.bundleId =
      d.indexed.bundles.filterMap IndexedBundle.bundleId :=
    filterMap_eq_of_forall₂ h.same.bundles_indexed fun _ _ hab => hab.bundleId
  rw [accepted?, accepted?, ← hconsignment, ← hschema, ← hbundles, ← h.same.contractId_eq,
    ← h.same.keys_indexed]
  cases c.indexed.consignmentId with
  | none => rfl
  | some own =>
    cases c.indexed.contractId with
    | none => rfl
    | some contract => cases c.indexed.schemaId <;> rfl

/-- The assembly of a consignment and of what restores it come to the same. -/
theorem Restored.judge_eq (h : c.Restored d) (found : List StrictError) :
    d.judge found d.indexed = (fun v => { v with consignment := d }) <$> c.judge found c.indexed := by
  unfold judge
  rw [h.accepted?_eq]
  cases found with
  | cons e found => rfl
  | nil => cases c.accepted? c.indexed <;> rfl

/-- **Verification depends on the canonical bytes only.** What is decoded from the bytes of a consignment
gets the same report as the consignment, and its assembly comes to the same: the same rejection, or an
accepted consignment with the same identifiers in the same order. -/
theorem check_of_decode (hschema : c.schema.Regular) (htypes : TypeSystem.Reachable c.types)
    (hkeys : c.TypesAreKeys) {octets : Octets} (hencode : c.encode = .ok octets) :
    ∃ d, decode octets = .ok d ∧
      (∃ report, c.check.Yields (.ok report) ∧ d.check.Yields (.ok report)) ∧
      ∀ outcome, c.assemble.Yields outcome →
        d.assemble.Yields ((fun v => { v with consignment := d }) <$> outcome) := by
  obtain ⟨d, hdecode, hrestored⟩ := exists_restored hschema htypes.wellFormed hkeys hencode
  obtain ⟨found, hfound⟩ :=
    (exists_otherFindings_iff htypes.wellFormed).2 (hrestored.encodable.checkable hkeys)
  have hfindings : c.findings = .ok (found, c.indexed) := by
    rw [hrestored.encodable.findings_eq, hfound]
    rfl
  have hfindings' : d.findings = .ok (found, d.indexed) := by
    rw [hrestored.encodable'.findings_eq, ← hrestored.same.otherFindings_eq, hfound]
    rfl
  refine ⟨d, hdecode, ⟨⟨found⟩, ?_, ?_⟩, fun outcome houtcome => ?_⟩
  · have h := c.check_yields
    rwa [hfindings] at h
  · have h := d.check_yields
    rwa [hfindings'] at h
  · have hassemble : c.assemble.Yields (c.judge found c.indexed) := by
      have h := c.assemble_yields
      rwa [hfindings] at h
    have hassemble' : d.assemble.Yields (d.judge found d.indexed) := by
      have h := d.assemble_yields
      rwa [hfindings'] at h
    rwa [houtcome.unique hassemble, ← hrestored.judge_eq]

/-- A consignment of two views is accepted, and so is what is decoded from its bytes. -/
theorem check_of_decode_views : ∃ (c d : Consignment) (octets : Octets) (v : ValidConsignment),
    c.bundles.length = 2 ∧ c.encode = .ok octets ∧ decode octets = .ok d ∧
      (∃ report, c.check.Yields (.ok report) ∧ d.check.Yields (.ok report)) ∧
      c.assemble.Yields (.ok v) ∧ d.assemble.Yields (.ok { v with consignment := d }) := by
  obtain ⟨schemaId, genesis, first, second, bundle, v, w, -, -, -, -, hconsistent, -⟩ :=
    exists_consistent_views (zeroId .secretSeal) (zeroId .secretSeal)
  have hregular : rightsSchema.Regular := ⟨rfl, List.forall_mem_singleton.2 rfl⟩
  have hkeys : ∀ secret,
      (handing schemaId [v.toBundle, w.toBundle] bundle secret).TypesAreKeys := fun _ =>
    List.forall_mem_cons.2 ⟨List.forall_mem_singleton.2 rfl,
      List.forall_mem_singleton.2 (List.forall_mem_singleton.2 rfl)⟩
  obtain ⟨octets, hencode⟩ := hconsistent.encodable.whole
  obtain ⟨valid, hvalid, hidentifies⟩ := hconsistent.exists_accepted
  rw [ValidConsignment.Accepted, hidentifies.consignment] at hvalid
  obtain ⟨d, hdecode, hreport, hassemble⟩ := check_of_decode hregular .empty (hkeys _) hencode
  exact ⟨_, d, octets, valid, rfl, hencode, hdecode, hreport, hvalid, hassemble _ hvalid⟩

end Consignment

end StrictContract
