import StrictContract.Proofs.Codec.Writing
import StrictContract.Proofs.Table
import StrictContract.Proofs.Value.Keys

/-! # Intact values — values without surrogates

A value is **intact** if no text in it holds a surrogate. All that an encoder visits in an intact value
is intact again: items, entries and the two parts of a pair, and also what the value answers to by name. -/

namespace StrictContract.Value

mutual

/-- Whether a value is **intact**: no text in it holds a surrogate. -/
def isIntact : Value → Bool
  | broken _ => false
  | list items => areIntact items
  | tuple items => areIntact items
  | set items => areIntact items
  | map entries => entriesIntact entries
  | tagged _ value => isIntact value
  | record _ fields => fieldsIntact fields
  | declared _ fields => fieldsIntact fields
  | _ => true

/-- Whether all items of a sequence are intact. -/
def areIntact : List Value → Bool
  | [] => true
  | v :: rest => isIntact v && areIntact rest

/-- Whether all keys and all contents of a mapping are intact. -/
def entriesIntact : List (Value × Value) → Bool
  | [] => true
  | (k, v) :: rest => isIntact k && isIntact v && entriesIntact rest

/-- Whether all fields of a record are intact. -/
def fieldsIntact : List (String × Value) → Bool
  | [] => true
  | (_, v) :: rest => isIntact v && fieldsIntact rest

end

attribute [local simp] isIntact

@[simp] theorem areIntact_iff {items : List Value} :
    areIntact items = true ↔ ∀ v ∈ items, v.isIntact = true := by
  induction items with
  | nil => simp [areIntact]
  | cons v items ih => simp [areIntact, ih]

@[simp] theorem entriesIntact_iff {entries : List (Value × Value)} :
    entriesIntact entries = true ↔
      ∀ e ∈ entries, e.1.isIntact = true ∧ e.2.isIntact = true := by
  induction entries with
  | nil => simp [entriesIntact]
  | cons e entries ih => simp [entriesIntact, ih]

@[simp] theorem fieldsIntact_iff {fields : List (String × Value)} :
    fieldsIntact fields = true ↔ ∀ f ∈ fields, f.2.isIntact = true := by
  induction fields with
  | nil => simp [fieldsIntact]
  | cons f fields ih => simp [fieldsIntact, ih]

@[simp] theorem isIntact_ofFields {fields : List (String × Value)} :
    (ofFields fields).isIntact = true ↔ ∀ f ∈ fields, f.2.isIntact = true := by
  simp only [ofFields, isIntact, entriesIntact_iff, List.forall_mem_map]
  simp

@[simp] theorem isIntact_ofTexts (texts : List String) : (ofTexts texts).isIntact = true := by
  simp [ofTexts]

/-! ## Items and entries -/

variable {v x : Value} {name : String}

/-- The items of an intact value are intact. -/
theorem isIntact_of_items? {items : List Value} (hv : v.isIntact = true)
    (h : v.items? = some items) : ∀ x ∈ items, x.isIntact = true := by
  cases v with
  | list _ | tuple _ | set _ =>
    cases h
    exact areIntact_iff.1 hv
  | map entries =>
    cases h
    exact List.forall_mem_map.2 fun e he => (entriesIntact_iff.1 hv e he).1
  | tagged variant value =>
    cases h
    exact areIntact_iff.1 (by simpa [areIntact] using hv)
  | text _ | bytes _ | id _ _ =>
    cases h
    exact List.forall_mem_map.2 fun _ _ => rfl
  | broken _ => cases hv
  | _ => cases h

/-- The entries of an intact value are intact pairs. -/
theorem isIntact_of_mapItems {form : MapForm} {items : List Value} (hv : v.isIntact = true)
    (h : v.mapItems form = .ok items) : ∀ x ∈ items, x.isIntact = true := by
  unfold mapItems at h
  split at h
  · cases h
    refine List.forall_mem_map.2 fun e he => ?_
    simpa using entriesIntact_iff.1 hv e he
  · cases h
    exact areIntact_iff.1 hv
  · cases h
    exact areIntact_iff.1 hv
  · cases h
    simpa using hv
  · cases h

/-- Both parts of an intact pair are intact. -/
theorem isIntact_of_unpair {a b : Value} (hv : v.isIntact = true) (h : v.unpair = .ok (a, b)) :
    a.isIntact = true ∧ b.isIntact = true := by
  obtain ⟨items, hitems, h⟩ := bind_eq_ok.1 h
  have hall := isIntact_of_items? hv (iterate_eq_ok.1 hitems)
  split at h
  · cases h
    exact ⟨hall _ (by simp), hall _ (by simp)⟩
  · cases h
  · cases h

/-! ## Features -/

theorem all_numberFact? (n : Int) (name : String) : (numberFact? n name).all isIntact = true := by
  simp [numberFact?, apply_ite (Option.all isIntact)]

theorem all_memberNamed? (e : Enumeration) (name : String) :
    (memberNamed? e name).all isIntact = true := by
  simp [memberNamed?, Option.all_map]

theorem all_taggedFact? (name : String) : (taggedFact? name).all isIntact = true := by
  simp [taggedFact?, apply_ite (Option.all isIntact)]

theorem all_idFact? (kind : IdKind) (name : String) : (idFact? kind name).all isIntact = true := by
  cases kind <;> simp [idFact?, apply_ite (Option.all isIntact)]

/-- If two optional values are intact, so is the first of them that there is. -/
theorem all_or {a b : Option Value} (ha : a.all isIntact = true) (hb : b.all isIntact = true) :
    (a <|> b).all isIntact = true := by
  cases a with
  | none => exact hb
  | some x => exact ha

/-- Every fact about a member is intact: besides names and numbers these are members again. -/
theorem all_memberFact? (e : Enumeration) (own : String) (tag : Int) (name : String) :
    (memberFact? e own tag name).all isIntact = true := by
  have hrest := all_or (all_memberNamed? e name) (all_numberFact? tag name)
  have hnamed : ∀ (n : String) (m : Value), memberNamed? e n = some m → m.isIntact = true :=
    fun n m hm => by simpa [hm] using all_memberNamed? e n
  simp only [memberFact?, apply_ite (Option.all isIntact), hrest, Option.all_some]
  simp [memberType, description, ofNat, Option.all_map]
  grind [isIntact]

/-- Every fact about a record is intact if its fields are. -/
theorem all_recordFact? {type : RecordType} {fields : List (String × Value)}
    (hfields : ∀ f ∈ fields, f.2.isIntact = true) (name : String) :
    (recordFact? type fields name).all isIntact = true := by
  have hdict := isIntact_ofFields.2 hfields
  simp only [recordFact?, apply_ite (Option.all isIntact), Option.all_some, hdict]
  simp [description]

/-- Every fact about an intact value is intact. -/
theorem all_fact? (hv : v.isIntact = true) (name : String) :
    (v.fact? name).all isIntact = true := by
  cases v with
  | member e own tag => exact all_memberFact? e own tag name
  | tagged _ _ => exact all_taggedFact? name
  | declared type fields => exact all_recordFact? (fieldsIntact_iff.1 hv) name
  | id kind _ => exact all_idFact? kind name
  | broken _ => cases hv
  | _ =>
    simp [fact?, apply_ite (Option.all isIntact), description, all_numberFact?]

/-- Every part of an intact value is intact. -/
theorem all_part? (hv : v.isIntact = true) (name : String) :
    (v.part? name).all isIntact = true := by
  have hlookup : ∀ fields : List (String × Value), fieldsIntact fields = true →
      (fields.lookup name).all isIntact = true := fun fields hfields => by
    cases hx : fields.lookup name with
    | none => rfl
    | some x => exact fieldsIntact_iff.1 hfields _ (mem_of_lookup hx)
  cases v with
  | record _ fields | declared _ fields => exact hlookup fields hv
  | tagged variant value =>
    have hvalue : value.isIntact = true := hv
    simp [part?, apply_ite (Option.all isIntact), hvalue]
  | _ => rfl

theorem all_operation? (groups : List Operations) (name : String) :
    (operation? groups name).all isIntact = true := by
  simp [operation?, Option.all_map]

/-- All that an intact value answers to by name is intact. -/
theorem all_feature? (hv : v.isIntact = true) (name : String) :
    (v.feature? name).all isIntact = true := by
  refine all_or (all_part? hv name) (all_or (all_fact? hv name) (all_or ?_ ?_))
  · have htype : v.typeFeature.isIntact = true := by cases v <;> rfl
    simp [apply_ite (Option.all isIntact), htype]
  · exact all_operation? v.operations name

/-- The fields of an intact value are intact. -/
theorem isIntact_of_field (hv : v.isIntact = true) (h : v.field name = .ok x) :
    x.isIntact = true := by
  unfold field at h
  split at h
  · split at h
    · rename_i hx
      cases h
      obtain ⟨k, hk, -⟩ := exists_mem_of_lookup? hx
      exact (entriesIntact_iff.1 hv _ hk).2
    · cases h
  · split at h
    · rename_i hx
      cases h
      simpa [hx] using all_feature? hv name
    · cases h

/-- The only code point of an intact text is a character. -/
theorem exists_character {p : CodePoint} (hv : v.isIntact = true)
    (h : v.codePoints? = some [p]) : ∃ c, p = .character c := by
  cases v with
  | text s =>
    obtain ⟨c, -, hc⟩ := List.map_eq_singleton_iff.1 (Option.some.inj h)
    exact ⟨c, hc.symm⟩
  | broken _ => cases hv
  | _ => cases h

end StrictContract.Value
