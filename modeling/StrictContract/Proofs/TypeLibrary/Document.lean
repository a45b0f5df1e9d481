import Mathlib.Data.List.Nodup
import StrictContract.Proofs.TypeLibrary.Form
import StrictContract.TypeLibrary.Standard

/-! # Documents — what the form of type libraries promises

A schema **accepts** a value in which it finds no error, and for each kind of schema that says what the
value is made of. The form of type libraries accepts a document only if each of its declarations is a
reference or has a form, which is all that the compiler relies on. -/

namespace StrictContract

open Draft (nameOf? natOf?)

/-! ## Documents -/

namespace Value

mutual

/-- Whether a value is a **document**: null, a truth value, an integer, a text, or a list or mapping
of documents. -/
def isDocument : Value → Bool
  | null => true
  | bool _ => true
  | int _ => true
  | text _ => true
  | broken _ => true
  | list items => areDocuments items
  | map entries => haveDocuments entries
  | _ => false

/-- Whether all items of a list are documents. -/
def areDocuments : List Value → Bool
  | [] => true
  | v :: rest => isDocument v && areDocuments rest

/-- Whether all keys and all contents of a mapping are documents. -/
def haveDocuments : List (Value × Value) → Bool
  | [] => true
  | (k, v) :: rest => isDocument k && isDocument v && haveDocuments rest

end

theorem haveDocuments_iff {entries : List (Value × Value)} :
    haveDocuments entries = true ↔ ∀ e ∈ entries, e.1.isDocument = true ∧ e.2.isDocument = true := by
  induction entries with
  | nil => simp [haveDocuments]
  | cons e entries ih => simp [haveDocuments, ih]

/-- What a document has under a key is a document. -/
theorem isDocument_of_entry? {v x : Value} {name : String} (hv : v.isDocument = true)
    (h : v.entry? name = some x) : x.isDocument = true := by
  cases v with
  | map entries =>
    obtain ⟨k, hk, -⟩ := exists_mem_of_lookup? h
    exact (haveDocuments_iff.1 hv _ hk).2
  | _ => cases h

end Value

/-! ## Acceptance -/

namespace DocumentSchema

/-- A schema **accepts** a value that has no errors. At which place the value stands does not
matter. -/
def Accepts (s : DocumentSchema) (v : Value) : Prop := ∃ place, s.errors place v = []

theorem errorUnless_eq_nil {place : Place} {b : Bool} : errorUnless place b = [] ↔ b = true := by
  cases b <;> simp [errorUnless]

section

attribute [local simp] errors errorUnless

variable {v : Value} {item : DocumentSchema}

theorem Accepts.eq_text {p : TextPattern} (hp : p ≠ .any) (h : (text p).Accepts v) :
    ∃ s, v = .text s := by
  obtain ⟨place, h⟩ := h
  cases v with
  | text s => exact ⟨s, rfl⟩
  | _ => simp [hp] at h

theorem Accepts.eq_int {min max : Int} (h : (integer min max).Accepts v) :
    ∃ n, v = .int n ∧ min ≤ n ∧ n ≤ max := by
  obtain ⟨place, h⟩ := h
  cases v with
  | int n => exact ⟨n, rfl, by simpa [errors, errorUnless_eq_nil] using h⟩
  | _ => simp at h

theorem Accepts.exists_identical {values : List Value} (h : (among values).Accepts v) :
    ∃ w ∈ values, identical v w = true := by
  obtain ⟨place, h⟩ := h
  rw [errors, errorUnless_eq_nil] at h
  exact List.any_eq_true.1 h

theorem Accepts.eq_list {min : Nat} {max : Option Nat} {distinct : Bool}
    (h : (list min max distinct item).Accepts v) :
    ∃ items, v = .list items ∧ ∀ x ∈ items, item.Accepts x := by
  obtain ⟨place, h⟩ := h
  cases v with
  | list items =>
    refine ⟨items, rfl, fun x hx => ?_⟩
    rw [errors] at h
    have hnil := List.flatten_eq_nil_iff.1 (List.append_eq_nil_iff.1 h).2
    obtain ⟨i, hi, rfl⟩ := List.mem_iff_getElem.1 hx
    have hmem : (items[i], i) ∈ items.zipIdx := List.mk_mem_zipIdx_iff_getElem?.2 (by simp [hi])
    exact ⟨_, hnil _ (List.mem_map_of_mem hmem)⟩
  | _ => simp at h

theorem Accepts.eq_pair {first second : DocumentSchema} (h : (pair first second).Accepts v) :
    ∃ a b, v = .list [a, b] ∧ first.Accepts a ∧ second.Accepts b := by
  obtain ⟨place, h⟩ := h
  cases v with
  | list items =>
    simp only [errors, List.append_eq_nil_iff, errorUnless_eq_nil, beq_iff_eq] at h
    obtain ⟨⟨hlength, hfirst⟩, hsecond⟩ := h
    obtain ⟨a, b, rfl⟩ := List.length_eq_two.1 hlength
    exact ⟨a, b, rfl, ⟨_, by simpa using hfirst⟩, ⟨_, by simpa using hsecond⟩⟩
  | _ => simp at h

theorem Accepts.eq_dictionary {min : Nat} {max : Option Nat}
    (h : (dictionary min max item).Accepts v) :
    ∃ entries, v = .map entries ∧ admitsCount min max entries.length = true ∧
      ∀ e ∈ entries, (∃ s, e.1 = .text s) ∧ item.Accepts e.2 := by
  obtain ⟨place, h⟩ := h
  cases v with
  | map entries =>
    simp only [errors, List.append_eq_nil_iff, errorUnless_eq_nil, List.flatMap_eq_nil_iff] at h
    obtain ⟨⟨hcount, hkeys⟩, hitems⟩ := h
    refine ⟨entries, rfl, hcount, fun e he => ⟨?_, _, hitems e he⟩⟩
    have hkey := hkeys e he
    unfold isIdentifier at hkey
    split at hkey
    · exact ⟨_, by assumption⟩
    · cases hkey
  | _ => simp at h

/-- The known fields of a mapping are accepted one by one. -/
theorem accepts_of_errorsOfFields {fields : List (String × DocumentSchema)} {place : Place}
    (h : errorsOfFields fields place v = []) :
    ∀ f ∈ fields, ∀ x, v.entry? f.1 = some x → f.2.Accepts x := by
  induction fields with
  | nil => nofun
  | cons f fields ih =>
    rw [errorsOfFields, List.append_eq_nil_iff] at h
    refine List.forall_mem_cons.2 ⟨fun x hx => ?_, ih h.2⟩
    have hfield := h.1
    rw [hx] at hfield
    exact ⟨_, hfield⟩

/-- What a record has: the required fields, no fields beyond the known ones, and in each field what
the field accepts. -/
structure HasFields (required : List String) (fields : List (String × DocumentSchema)) (v : Value) :
    Prop where
  mapping : ∃ entries, v = .map entries
  required : ∀ name ∈ required, ∃ x, v.entry? name = some x
  known : ∀ name, name ∉ fields.map Prod.fst → v.entry? name = none
  accepted : ∀ f ∈ fields, ∀ x, v.entry? f.1 = some x → f.2.Accepts x

theorem Accepts.hasFields {required : List String} {fields : List (String × DocumentSchema)}
    (h : (record required fields).Accepts v) : HasFields required fields v := by
  obtain ⟨place, h⟩ := h
  cases v with
  | map entries =>
    simp only [errors, List.append_eq_nil_iff, errorUnless_eq_nil, List.flatMap_eq_nil_iff,
      List.all_eq_true, List.any_eq_true] at h
    obtain ⟨⟨hrequired, hknown⟩, haccepted⟩ := h
    refine ⟨⟨entries, rfl⟩, fun name hname => Option.isSome_iff_exists.1 (hrequired name hname),
      fun name hname => ?_, accepts_of_errorsOfFields haccepted⟩
    -- what is found under the name is an entry of the mapping, so its key is a known one
    refine Option.eq_none_iff_forall_not_mem.2 fun x hx => hname ?_
    obtain ⟨k, hk, hsame⟩ := Value.exists_mem_of_lookup? hx
    obtain ⟨f, hf, hfield⟩ := hknown _ hk
    have hkey := Value.eq_of_same_text hsame
    rw [show k = .text f.1 from Value.eq_of_same_text hfield, Value.text.injEq] at hkey
    exact List.mem_map.2 ⟨f, hf, hkey⟩
  | _ => simp at h

theorem exists_accepting {alternatives : List DocumentSchema} {place : Place}
    (h : countAccepting alternatives place v ≠ 0) : ∃ s ∈ alternatives, s.Accepts v := by
  induction alternatives with
  | nil => exact absurd rfl h
  | cons s alternatives ih =>
    rw [countAccepting] at h
    by_cases hs : s.errors place v = []
    · exact ⟨s, List.mem_cons_self .., place, hs⟩
    · rw [if_neg (mt List.isEmpty_iff.1 hs), Nat.zero_add] at h
      obtain ⟨t, ht, haccepts⟩ := ih h
      exact ⟨t, List.mem_cons_of_mem _ ht, haccepts⟩

theorem Accepts.exists_alternative {alternatives : List DocumentSchema}
    (h : (exactlyOne alternatives).Accepts v) : ∃ s ∈ alternatives, s.Accepts v := by
  obtain ⟨place, h⟩ := h
  rw [errors, errorUnless_eq_nil, beq_iff_eq] at h
  exact exists_accepting (by rw [h]; exact Nat.one_ne_zero)

/-- A document is accepted when no paths of errors are reported. -/
theorem check_eq_nil {s : DocumentSchema} : s.check v = .ok [] ↔ s.errors [] v = [] := by
  rw [check, bind_eq_ok]
  constructor
  · rintro ⟨paths, hpaths, h⟩
    have hnil : paths = [] := by
      have hlength := congrArg List.length (Except.ok.inj h)
      rw [List.length_mergeSort] at hlength
      exact List.length_eq_zero_iff.1 hlength
    rw [hnil] at hpaths
    obtain ⟨ps, hps, hnil, -⟩ := mapM_eq_ok.1 hpaths
    rw [hps, List.map_eq_nil_iff.1 hnil.symm]
    rfl
  · intro h
    rw [h]
    exact ⟨[], rfl, congrArg Except.ok List.mergeSort_nil⟩

end

/-- A required field has something that its schema accepts. -/
theorem HasFields.exists_entry? {required : List String} {fields : List (String × DocumentSchema)}
    {v : Value} (h : HasFields required fields v) {f : String × DocumentSchema} (hf : f ∈ fields)
    (hrequired : f.1 ∈ required) : ∃ x, v.entry? f.1 = some x ∧ f.2.Accepts x := by
  obtain ⟨x, hx⟩ := h.required f.1 hrequired
  exact ⟨x, hx, h.accepted f hf x hx⟩

end DocumentSchema

/-! ## Declarations -/

namespace Form

open DocumentSchema

variable {v decl : Value}

/-- A loop over items of which every one can be read. -/
theorem exists_mapM_eq_some {α β : Type} {f : α → Option β} {xs : List α}
    (h : ∀ x ∈ xs, ∃ y, f x = some y) : ∃ ys, xs.mapM f = some ys := by
  induction xs with
  | nil => exact ⟨[], rfl⟩
  | cons x xs ih =>
    rw [List.forall_mem_cons] at h
    obtain ⟨y, hy⟩ := h.1
    obtain ⟨ys, hys⟩ := ih h.2
    exact ⟨y :: ys, by simp [hy, hys]⟩

theorem exists_nameOf? {p : TextPattern} (hp : p ≠ .any) (h : (text p).Accepts v) :
    ∃ s, nameOf? v = some s := by
  obtain ⟨s, rfl⟩ := h.eq_text hp
  exact ⟨s, rfl⟩

theorem exists_natOf? {max : Int} (h : (integer 0 max).Accepts v) : ∃ n, natOf? v = some n := by
  obtain ⟨n, rfl, hn, -⟩ := h.eq_int
  exact ⟨n.toNat, if_pos hn⟩

/-- A bound is read, whether it is given or not. -/
theorem exists_numberAt? {required : List String} {fields : List (String × DocumentSchema)}
    (h : HasFields required fields decl) (key : String) (hkey : (key, word) ∈ fields)
    (default : Nat) : ∃ n, numberAt? decl key default = some n := by
  unfold numberAt?
  cases hx : decl.entry? key with
  | none => exact ⟨default, rfl⟩
  | some x => exact exists_natOf? (h.accepted _ hkey x hx)

/-- In a document only integers are identical to integers. -/
theorem exists_width (widths : List Nat) (h : (among (widths.map .ofNat)).Accepts v)
    (hv : v.isDocument = true) : ∃ n, natOf? v = some n := by
  obtain ⟨w, hw, hidentical⟩ := h.exists_identical
  obtain ⟨n, -, rfl⟩ := List.mem_map.1 hw
  cases v with
  | int m =>
    have hm : (n : Int) = m := by
      simpa [identical, Value.octets?, Value.same, Value.ofNat, Value.number?, isTruth]
        using hidentical
    exact ⟨n, Draft.natOf?_eq_some.2 (congrArg Value.int hm.symm)⟩
  | null | text _ | broken _ =>
    simp [identical, Value.octets?, Value.same, Value.ofNat] at hidentical
  | bool _ | map _ | list _ =>
    simp [identical, orderedItems?, Value.octets?, Value.ofNat] at hidentical
  | _ => cases hv

/-- In a document only names of charsets are identical to them. -/
theorem exists_charsetOf? (h : charsetName.Accepts v) (hv : v.isDocument = true) :
    ∃ cs, charsetOf? v = some cs := by
  obtain ⟨w, hw, hidentical⟩ := h.exists_identical
  obtain ⟨cs, hcs, rfl⟩ := List.mem_map.1 hw
  cases v with
  | text s =>
    obtain rfl : s = cs.name := by
      simpa [identical, Value.octets?, Value.same, isTruth] using hidentical
    exact Option.isSome_iff_exists.1 (List.find?_isSome.2 ⟨cs, hcs, beq_self_eq_true _⟩)
  | null | int _ | broken _ =>
    simp [identical, Value.octets?, Value.same, Value.number?] at hidentical
  | bool _ | map _ | list _ => simp [identical, orderedItems?, Value.octets?] at hidentical
  | _ => cases hv

theorem exists_membersOf? {min : Nat} {max : Option Nat} (h : (dictionary min max byte).Accepts v) :
    ∃ members, membersOf? v = some members := by
  obtain ⟨entries, rfl, -, hentries⟩ := h.eq_dictionary
  refine exists_mapM_eq_some fun e he => ?_
  obtain ⟨⟨name, hname⟩, htag⟩ := hentries e he
  obtain ⟨tag, htag⟩ := exists_natOf? htag
  exact ⟨(name, tag), by simp [hname, nameOf?, htag]⟩

theorem exists_variantOf? (h : unionVariant.Accepts v) : ∃ x, variantOf? v = some x := by
  have hfields := h.hasFields
  obtain ⟨tag, htag, hnat⟩ := hfields.exists_entry? (f := ("tag", byte)) (by simp) (by simp)
  obtain ⟨ty, hty, hname⟩ := hfields.exists_entry? (f := ("type", typeReference)) (by simp) (by simp)
  obtain ⟨n, hn⟩ := exists_natOf? hnat
  obtain ⟨s, hs⟩ := exists_nameOf? (by decide) hname
  obtain ⟨entries, rfl⟩ := hfields.mapping
  refine ⟨(n, s), ?_⟩
  simp only [variantOf?, htag, hty, hn, hs, Option.bind_eq_bind, Option.bind_some, Option.pure_def]

theorem exists_variantsOf? {min : Nat} {max : Option Nat}
    (h : (dictionary min max unionVariant).Accepts v) : ∃ variants, variantsOf? v = some variants := by
  obtain ⟨entries, rfl, -, hentries⟩ := h.eq_dictionary
  refine exists_mapM_eq_some fun e he => ?_
  obtain ⟨⟨name, hname⟩, hvariant⟩ := hentries e he
  obtain ⟨x, hx⟩ := exists_variantOf? hvariant
  exact ⟨(name, x), by simp [hname, nameOf?, hx]⟩

/-- A mapping of exactly one entry is read as a field. -/
theorem exists_fieldOf? (h : structField.Accepts v) : ∃ f, fieldOf? v = some f := by
  obtain ⟨entries, rfl, hcount, hentries⟩ := h.eq_dictionary
  obtain ⟨e, rfl⟩ : ∃ e, entries = [e] := by
    refine List.length_eq_one_iff.1 ?_
    simp only [admitsCount, Option.all_some, Bool.and_eq_true, decide_eq_true_eq] at hcount
    omega
  obtain ⟨⟨name, hname⟩, hty⟩ := hentries e (List.mem_singleton.2 rfl)
  obtain ⟨ty, hty⟩ := exists_nameOf? (by decide) hty
  obtain ⟨k, x⟩ := e
  exact ⟨(name, ty), by simp_all [fieldOf?, nameOf?]⟩

/-- What the mapping of a form has under the key that gives the form its name. -/
theorem exists_content {name : String} {content : DocumentSchema}
    {others : List (String × DocumentSchema)} (h : (DocumentSchema.form name content others).Accepts v) :
    HasFields [name] ((name, content) :: others) v ∧
      ∃ x, v.entry? name = some x ∧ content.Accepts x :=
  ⟨h.hasFields, h.hasFields.exists_entry? (List.mem_cons_self ..) (List.mem_cons_self ..)⟩

/-- A declaration of a document that is accepted is a reference or has a form. -/
theorem exists_of_accepts_declaration (h : declaration.Accepts decl)
    (hdocument : decl.isDocument = true) :
    (∃ s, decl = .text s) ∨ ∃ form, ofValue? decl = some form := by
  obtain ⟨s, hs, h⟩ := h.exists_alternative
  simp only [List.mem_cons, List.not_mem_nil, or_false] at hs
  rcases hs with rfl | rfl | rfl | rfl | rfl | rfl | rfl | rfl | rfl | rfl | rfl | rfl | rfl
  · exact .inl (h.eq_text (by decide))
  -- a mapping of one form has none of the other keys, so its own key is the first that is found
  all_goals refine .inr ?_
  · obtain ⟨-, x, hx, haccepts⟩ := exists_content h
    obtain ⟨n, hn⟩ := exists_width [0, 1, 2, 3, 4, 8, 16, 32] haccepts
      (Value.isDocument_of_entry? hdocument hx)
    exact ⟨.primitive n, by simp [ofValue?, hx, hn]⟩
  · obtain ⟨hfields, x, hx, -⟩ := exists_content h
    exact ⟨.unicode, by simp [ofValue?, hfields.known, hx]⟩
  · obtain ⟨hfields, x, hx, haccepts⟩ := exists_content h
    obtain ⟨members, hmembers⟩ := exists_membersOf? haccepts
    exact ⟨.enumeration members, by simp [ofValue?, hfields.known, hx, hmembers]⟩
  · obtain ⟨hfields, x, hx, haccepts⟩ := exists_content h
    obtain ⟨variants, hvariants⟩ := exists_variantsOf? haccepts
    exact ⟨.union variants, by simp [ofValue?, hfields.known, hx, hvariants]⟩
  · obtain ⟨hfields, x, hx, haccepts⟩ := exists_content h
    obtain ⟨inner, hinner⟩ := exists_nameOf? (by decide) haccepts
    exact ⟨.option inner, by simp [ofValue?, hfields.known, hx, hinner]⟩
  · obtain ⟨hfields, x, hx, haccepts⟩ := exists_content h
    obtain ⟨items, rfl, hitems⟩ := haccepts.eq_list
    obtain ⟨names, hnames⟩ :=
      exists_mapM_eq_some fun x hx => exists_nameOf? (by decide) (hitems x hx)
    exact ⟨.tuple names, by simp [ofValue?, hfields.known, hx, Value.items?, hnames]⟩
  · obtain ⟨hfields, x, hx, haccepts⟩ := exists_content h
    obtain ⟨items, rfl, hitems⟩ := haccepts.eq_list
    obtain ⟨fields, hfs⟩ := exists_mapM_eq_some fun x hx => exists_fieldOf? (hitems x hx)
    exact ⟨.struct fields, by simp [ofValue?, hfields.known, hx, Value.items?, hfs]⟩
  · have hfields := h.hasFields
    obtain ⟨item, hitem, haccepts⟩ := hfields.exists_entry? (f := ("array", typeReference))
      (by simp) (by simp)
    obtain ⟨len, hlen, hlength⟩ := hfields.exists_entry? (f := ("len", integer 1 0xffff))
      (by simp) (by simp)
    obtain ⟨s, hs⟩ := exists_nameOf? (by decide) haccepts
    obtain ⟨n, rfl, hn, -⟩ := hlength.eq_int
    have hnat : natOf? (.int n) = some n.toNat := if_pos (Int.le_of_lt hn)
    exact ⟨.array s n.toNat, by simp_all [ofValue?, hfields.known]⟩
  · obtain ⟨hfields, x, hx, haccepts⟩ := exists_content h
    obtain ⟨item, hitem⟩ := exists_nameOf? (by decide) haccepts
    obtain ⟨min, hmin⟩ := exists_numberAt? hfields "min" (by simp [bounds]) 0
    obtain ⟨max, hmax⟩ := exists_numberAt? hfields "max" (by simp [bounds]) 0xffff
    exact ⟨.list item min max, by simp [ofValue?, hfields.known, bounds, hx, hitem, hmin, hmax]⟩
  · obtain ⟨hfields, x, hx, haccepts⟩ := exists_content h
    obtain ⟨rest, hrest⟩ := exists_charsetOf? haccepts (Value.isDocument_of_entry? hdocument hx)
    obtain ⟨first, hfirst⟩ : ∃ first, charsetOf? ((decl.entry? "first").getD x) = some first := by
      cases hentry : decl.entry? "first" with
      | none => exact ⟨rest, hrest⟩
      | some y =>
        refine exists_charsetOf? (hfields.accepted ("first", charsetName) (by simp) y hentry) ?_
        exact Value.isDocument_of_entry? hdocument hentry
    obtain ⟨min, hmin⟩ := exists_numberAt? hfields "min" (by simp [bounds]) 1
    obtain ⟨max, hmax⟩ := exists_numberAt? hfields "max" (by simp [bounds]) 0xff
    exact ⟨.ascii first rest min max,
      by simp [ofValue?, hfields.known, bounds, hx, hfirst, hrest, hmin, hmax]⟩
  · obtain ⟨hfields, x, hx, haccepts⟩ := exists_content h
    obtain ⟨item, hitem⟩ := exists_nameOf? (by decide) haccepts
    obtain ⟨min, hmin⟩ := exists_numberAt? hfields "min" (by simp [bounds]) 0
    obtain ⟨max, hmax⟩ := exists_numberAt? hfields "max" (by simp [bounds]) 0xffff
    exact ⟨.set item min max, by simp [ofValue?, hfields.known, bounds, hx, hitem, hmin, hmax]⟩
  · obtain ⟨hfields, x, hx, haccepts⟩ := exists_content h
    obtain ⟨key, value, rfl, hkey, hvalue⟩ := haccepts.eq_pair
    obtain ⟨key, hkey⟩ := exists_nameOf? (by decide) hkey
    obtain ⟨value, hvalue⟩ := exists_nameOf? (by decide) hvalue
    obtain ⟨min, hmin⟩ := exists_numberAt? hfields "min" (by simp [bounds]) 0
    obtain ⟨max, hmax⟩ := exists_numberAt? hfields "max" (by simp [bounds]) 0xffff
    exact ⟨.map key value min max,
      by simp [ofValue?, hfields.known, bounds, hx, Value.items?, hkey, hvalue, hmin, hmax]⟩

end Form

/-! ## Libraries -/

namespace TypeLibrary

/-- A **readable** library: declared names are texts, and every declaration is a reference or has a
form. -/
def Readable (lib : TypeLibrary) : Prop :=
  ∀ e ∈ lib.declarations, (∃ s, e.1 = .text s) ∧
    ((∃ s, e.2 = .text s) ∨ ∃ form, Form.ofValue? e.2 = some form)

variable {document : Value} {lib : TypeLibrary}

/-- A document has a library exactly if no errors are reported. -/
theorem exists_ofDocument_iff :
    (∃ lib, ofDocument document = .ok lib) ↔ DocumentSchema.typeLibrary.check document = .ok [] := by
  unfold ofDocument
  cases hcheck : DocumentSchema.typeLibrary.check document with
  | error e => exact iff_of_false (fun ⟨_, h⟩ => by cases h) nofun
  | ok paths =>
    cases paths with
    | nil => exact iff_of_true ⟨_, rfl⟩ rfl
    | cons p paths => exact iff_of_false (fun ⟨_, h⟩ => by cases h) (by simp)

/-- The declarations of a document are its types, which are accepted under texts. -/
theorem declarations_of_ofDocument (h : ofDocument document = .ok lib) :
    document.entry? "types" = some (.map lib.declarations) ∧
      ∀ e ∈ lib.declarations, (∃ s, e.1 = .text s) ∧ DocumentSchema.declaration.Accepts e.2 := by
  have hcheck := exists_ofDocument_iff.1 ⟨lib, h⟩
  have haccepts : DocumentSchema.typeLibrary.Accepts document :=
    ⟨[], DocumentSchema.check_eq_nil.1 hcheck⟩
  obtain ⟨types, htypes, hdictionary⟩ := haccepts.hasFields.exists_entry?
    (f := ("types", .dictionary 1 none .declaration)) (by simp) (by simp)
  obtain ⟨entries, rfl, -, hentries⟩ := hdictionary.eq_dictionary
  have hdeclarations : lib.declarations = entries := by
    unfold ofDocument at h
    rw [hcheck] at h
    rw [← Except.ok.inj h]
    simp [htypes, Value.entries?]
  rw [hdeclarations]
  exact ⟨htypes, hentries⟩

/-- The library of a document is readable. -/
theorem readable_of_ofDocument (hdocument : document.isDocument = true)
    (h : ofDocument document = .ok lib) : lib.Readable := by
  obtain ⟨htypes, hdeclarations⟩ := declarations_of_ofDocument h
  have htyped := Value.isDocument_of_entry? hdocument htypes
  intro e he
  obtain ⟨hname, hdeclaration⟩ := hdeclarations e he
  exact ⟨hname, Form.exists_of_accepts_declaration hdeclaration
    (Value.haveDocuments_iff.1 htyped e he).2⟩

/-! ### Documents of given declarations -/

/-- A document with the given declarations. -/
def documentOf (name : String) (types : List (String × Value)) : Value :=
  Declaration.entries [("library", .text name), ("types", Declaration.entries types)]

/-- A document with the given declarations has the library of them. -/
theorem ofDocument_documentOf {name : String} {types : List (String × Value)}
    (h : DocumentSchema.typeLibrary.check (documentOf name types) = .ok []) :
    ofDocument (documentOf name types) = .ok ⟨name, Declaration.named types, [], ""⟩ := by
  unfold ofDocument
  rw [h]
  simp [documentOf, Declaration.entries, Declaration.named, Value.ofFields, Value.entry?,
    Value.lookup?, Value.same, Value.entries?, textEntry]
  rfl

/-- An enumeration and another name for it. -/
def colours : List (String × Value) := [
  ("Colour", Declaration.entries [("enum", Declaration.entries [("red", .int 1), ("blue", .int 0)])]),
  ("Paint", .text "Colour")]

theorem check_colours : DocumentSchema.typeLibrary.check (documentOf "Colours" colours) = .ok [] :=
  DocumentSchema.check_eq_nil.2 (List.isEmpty_iff.1 (by decide +kernel))

end TypeLibrary

end StrictContract
