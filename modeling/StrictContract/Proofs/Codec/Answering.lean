import StrictContract.Proofs.Codec.Recovery
import StrictContract.Proofs.TypeSystem.Strictness

/-! # Answers — writing that fails with an error of the library only

A codec **answers** a value when it writes it or refuses it with a strict error. Whatever is out of
range, too long or of another type is refused so. What escapes are members of enumerations that take
an ability away from their members: an **ordinary** value is none, and has none inside it where it
would be shown. -/

namespace StrictContract

/-- The abilities of a number that writing it calls upon: it is compared, packed and put into words. -/
def Value.abilities : List String := ["__eq__", "__lt__", "__gt__", "to_bytes", "__format__", "__str__"]

/-- An **ordinary** value can be shown, and is no member that lacks an ability that writing calls
upon. -/
structure Value.Ordinary (v : Value) : Prop where
  able : ∀ ability ∈ Value.abilities, v.lacks ability = false
  shown : v.unshown? = none

theorem ordinary_int (n : Int) : (Value.int n).Ordinary := ⟨fun _ _ => rfl, rfl⟩

theorem hasLabel_int (n : Int) : (Value.int n).HasLabel := ⟨_, rfl⟩

namespace Codec

/-- A codec **answers** a value with its bytes or with a strict error. -/
def Answers (c : Codec) (v : Value) : Prop := IsStrict (c.write v)

variable {v : Value}

/-! ## Scalars -/

/-- What an ordinary value is shown as. -/
theorem shown_of_ordinary (hv : v.Ordinary) : v.shown = .ok v.literal := by
  rw [Value.shown, hv.shown]

theorem isStrict_integer (hv : v.Ordinary) : IsStrict v.integer := by
  unfold Value.integer
  split
  · exact isStrict_ok _
  · rw [hv.able "__lt__" (by decide), hv.able "__gt__" (by decide)]
    exact isStrict_ok _
  · exact isStrict_fail _

theorem isStrict_integerOctets (hv : v.Ordinary) (n : Int) (octets : Option Octets)
    (codec : String) : IsStrict (v.integerOctets n octets codec) := by
  unfold Value.integerOctets
  rw [hv.able "to_bytes" (by decide), hv.able "__format__" (by decide), hv.able "__str__" (by decide)]
  split
  · exact isStrict_ok _
  · exact isStrict_fail _

theorem answers_uint (hv : v.Ordinary) (size : Nat) : (uint size).Answers v := by
  rw [Answers, write]
  exact (isStrict_integer hv).bind fun n _ => isStrict_integerOctets hv _ _ _

theorem answers_sint (hv : v.Ordinary) (size : Nat) : (sint size).Answers v := by
  rw [Answers, write]
  exact (isStrict_integer hv).bind fun n _ => isStrict_integerOctets hv _ _ _

theorem answers_unit (hv : v.Ordinary) : unit.Answers v := by
  rw [Answers, write.eq_def]
  dsimp only
  split
  · exact isStrict_ok _
  · rw [shown_of_ordinary hv]
    exact isStrict_fail _

theorem answers_bool (v : Value) : bool.Answers v := by
  rw [Answers, write.eq_def]
  dsimp only
  split
  · exact isStrict_ok _
  · exact isStrict_fail _

theorem isStrict_octets (v : Value) : IsStrict v.octets := by
  unfold Value.octets
  split
  · exact isStrict_ok _
  · exact isStrict_fail _

theorem answers_id (kind : IdKind) (v : Value) : (id kind).Answers v := by
  rw [Answers, write]
  refine (isStrict_octets v).bind fun octets _ => ?_
  split
  · exact isStrict_ok _
  · exact isStrict_fail _

theorem answers_bytes (b : Bounds) (label : Option String) (v : Value) :
    (bytes b label).Answers v := by
  rw [Answers, write]
  exact (isStrict_octets v).bind fun octets _ => (isStrict_checkOctets _ _).bind fun _ _ =>
    isStrict_ok _

theorem answers_ascii (first rest : Charset) (b : Bounds) (label : Option String) (v : Value) :
    (ascii first rest b label).Answers v := by
  rw [Answers, write.eq_def]
  dsimp only
  split
  · exact (isStrict_checkTextLength _ _ _).bind fun _ _ => (isStrict_checkChars _ _ _ _).bind
      fun _ _ => isStrict_ok _
  · exact (isStrict_checkTextLength _ _ _).bind fun _ _ => (isStrict_checkChars _ _ _ _).bind
      fun _ _ => isStrict_fail _
  · exact isStrict_fail _

/-- Ordinary values are answered by enumerations with members whose declaration keeps what is needed
to look them up. -/
theorem answers_enumeration {decl : Enumeration} (hnames : decl.names.isEmpty = false)
    (hmissing : decl.lacks "_missing_" = false) (hint : decl.lacks "__int__" = false)
    (hv : v.Ordinary) : (enumeration decl).Answers v := by
  have hlookUp : IsStrict (decl.lookUp v) := by
    unfold Enumeration.lookUp
    rw [hnames, hv.able "__eq__" (by decide), shown_of_ordinary hv, hmissing]
    simp only [Bool.false_eq_true, if_false, Bool.and_false]
    split
    · exact isStrict_ok _
    · exact isStrict_ok _
  rw [Answers, write]
  refine hlookUp.bind fun found _ => ?_
  split
  · rw [hint]
    exact isStrict_ok _
  · rw [shown_of_ordinary hv]
    exact isStrict_fail _

/-! ## Collections -/

/-- The positions of the items of a list come to light only in the places of errors. -/
theorem isStrict_zipIdx {item : Codec} {vs : List Value} (hvs : ∀ v ∈ vs, item.Answers v) (n : Nat) :
    IsStrict ((vs.zipIdx n).mapM fun (x, i) => inside (indexSegment i) (item.write x)) :=
  isStrict_mapM fun _ hx => (hvs _ (List.fst_mem_of_mem_zipIdx hx)).inside _

theorem answers_list {item : Codec} {b : Bounds} {label : Option String} {vs : List Value}
    (hvs : ∀ v ∈ vs, item.Answers v) : (list item b label).Answers (.tuple vs) := by
  rw [Answers, write]
  exact (isStrict_checkEntries _ _).bind fun _ _ => (isStrict_zipIdx hvs 0).bind
    fun _ _ => isStrict_ok _

theorem isStrict_ascending {α : Type} (entries : List (Octets × α)) : IsStrict (ascending entries) := by
  unfold ascending
  dsimp only
  split
  · exact isStrict_ok _
  · exact isStrict_fail _

/-- Sets of labelled elements are answered when the elements are. -/
theorem answers_set {item : Codec} {b : Bounds} {form : SetForm} {label : Option String}
    {vs : List Value} (hvs : ∀ v ∈ vs, item.Answers v ∧ v.HasLabel) :
    (set item b form label).Answers (.set vs) := by
  rw [Answers, write]
  refine (isStrict_mapM fun v hv => ?_).bind fun _ _ => (isStrict_ascending _).bind fun _ _ =>
    (isStrict_checkEntries _ _).bind fun _ _ => isStrict_ok _
  exact ((hvs v hv).1.insideEntry (hvs v hv).2).bind fun _ _ => isStrict_ok _

/-- Mappings with labelled keys are answered when keys and values are. -/
theorem answers_map {key value : Codec} {b : Bounds} {form : MapForm} {label : Option String}
    {es : List (Value × Value)}
    (hes : ∀ e ∈ es, key.Answers e.1 ∧ e.1.HasLabel ∧ value.Answers e.2) :
    (map key value b form label).Answers (.map es) := by
  have hitems : Value.mapItems form (.map es) = .ok (es.map fun e => .tuple [e.1, e.2]) := rfl
  rw [Answers, write, hitems]
  refine (isStrict_ok _).bind fun _ hok => ?_
  obtain rfl := Except.ok.inj hok
  -- every entry that is sorted is one of the mapping, so its key has a label
  refine IsStrict.bind (isStrict_mapM ?_) fun written hwritten => ?_
  · refine List.forall_mem_map.2 fun e he => ?_
    exact ((hes e he).1.insideEntry (hes e he).2.1).bind fun _ _ => isStrict_ok _
  · have hmem : ∀ x ∈ written, x.2 ∈ es := by
      obtain ⟨ps, hps, rfl, hround⟩ := mapM_eq_ok.1 hwritten
      refine List.forall_mem_map.2 fun q hq => ?_
      have hfst : q.1 ∈ es.map fun e => Value.tuple [e.1, e.2] := by
        rw [hps]
        exact List.mem_map_of_mem hq
      obtain ⟨e, he, heq⟩ := List.mem_map.1 hfst
      have hq' := hround q hq
      rw [← heq, Value.unpair_tuple] at hq'
      obtain ⟨_, hpair, hq'⟩ := bind_eq_ok.1 hq'
      obtain rfl := Except.ok.inj hpair
      obtain ⟨raw, -, hq'⟩ := bind_eq_ok.1 hq'
      rw [← Except.ok.inj hq']
      exact he
    refine (isStrict_ascending _).bind fun sorted hsorted => (isStrict_checkEntries _ _).bind
      fun _ _ => (isStrict_mapM fun x hx => ?_).bind fun _ _ => isStrict_ok _
    have he := hes x.2 (hmem x ((ascending_eq_ok.1 hsorted).1.mem_iff.1 hx))
    exact (he.2.2.insideEntry he.2.1).bind fun _ _ => isStrict_ok _

/-! ## Composites -/

theorem answers_option {inner : Codec} (hv : v ≠ .null → inner.Answers v) :
    (option inner).Answers v := by
  rw [Answers]
  by_cases hnull : v = .null
  · rw [hnull, write]
    exact isStrict_ok _
  · rw [write]
    · exact (hv hnull).bind fun _ _ => isStrict_ok _
    · exact hnull

/-- Fields of which every one is answered by the codec of its name. -/
def AnswersFields : List (String × Codec) → List (String × Value) → Prop
  | [], [] => True
  | (name, c) :: fields, (x, v) :: vs => x = name ∧ c.Answers v ∧ AnswersFields fields vs
  | _, _ => False

/-- Answered fields are those of the struct. -/
theorem AnswersFields.names {fields : List (String × Codec)} {vs : List (String × Value)}
    (h : AnswersFields fields vs) : vs.map Prod.fst = fields.map Prod.fst := by
  fun_induction AnswersFields fields vs with
  | case1 => rfl
  | case2 name c fields x v vs ih =>
    obtain ⟨rfl, -, h⟩ := h
    rw [List.map_cons, List.map_cons, ih h]
  | case3 => exact h.elim

theorem isStrict_writeFields {fields : List (String × Codec)} {vs : List (String × Value)}
    (h : AnswersFields fields vs) (hv : ∀ x ∈ vs, v.field x.1 = .ok x.2) :
    IsStrict (writeFields fields v) := by
  fun_induction AnswersFields fields vs with
  | case1 => exact isStrict_ok _
  | case2 name c fields x w vs ih =>
    obtain ⟨rfl, hw, h⟩ := h
    rw [List.forall_mem_cons] at hv
    rw [writeFields, hv.1]
    exact (hw.inside _).bind fun _ _ => (ih h hv.2).bind fun _ _ => isStrict_ok _
  | case3 => exact h.elim

/-- Records of answered fields are answered. -/
theorem answers_record {name type : String} {fields : List (String × Codec)} {wrapped : Bool}
    {vs : List (String × Value)} (hnames : (fields.map Prod.fst).Nodup)
    (h : AnswersFields fields vs) :
    (struct name fields (.record type) wrapped).Answers (.record type vs) := by
  rw [Answers, write_record]
  exact isStrict_writeFields h fun x hx => field_record (h.names ▸ hnames) hx

/-- A record is answered by a union of records when it is by the variant of its type. -/
theorem answers_union {name type : String} {variants : List (Nat × String × Codec)}
    {vs : List (String × Value)}
    (h : ∀ x ∈ variants, x.2.2.accepts (.record type vs) = true → x.2.2.Answers (.record type vs)) :
    (union name variants).Answers (.record type vs) := by
  rw [Answers, write_union_record]
  induction variants with
  | nil => exact isStrict_fail _
  | cons x variants ih =>
    rw [List.forall_mem_cons] at h
    rw [writeAccepted]
    split
    · rename_i haccepts
      exact ((h.1 haccepts).inside _).bind fun _ _ => isStrict_ok _
    · exact ih h.2

end Codec

end StrictContract
