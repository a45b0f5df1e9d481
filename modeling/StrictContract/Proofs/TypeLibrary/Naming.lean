import StrictContract.Proofs.Codec.Blame
import StrictContract.Proofs.Codec.Core
import StrictContract.Proofs.Codec.Written
import StrictContract.Proofs.TypeLibrary.Document

/-! # Naming — the names that documents give and those that definitions have

The members of an enumeration, the variants of a union and the fields of a struct have names. The form
of type libraries asks for an **identifier**, and the codec of definitions writes identifiers only. The
pattern of the form lets one line feed follow the identifier, the codec does not: this is all that
there is between them. A definition is written only if all its names are, and an error by which the
codec refuses a name is the refusal of a name of the definition. -/

namespace StrictContract

open TypeDef (identCodec)

/-! ## Identifiers -/

namespace Codec

/-- Characters pass their check when the first one is in its own charset and the others are in theirs. -/
theorem checkChars_cons {rest first : Charset} {i : Nat} {c : Char} {cs : List Char} :
    checkChars rest first i (c :: cs) = .ok () ↔
      first.contains c = true ∧ ∀ d ∈ cs, rest.contains d = true := by
  rw [checkChars]
  by_cases hc : first.contains c = true
  · rw [if_pos hc, checkChars_self, and_iff_right hc]
  · rw [if_neg hc]
    exact ⟨fun h => absurd h fail_ne_ok, fun h => absurd h.1 hc⟩

end Codec

/-- The names that are written are the identifiers. -/
theorem written_identCodec_iff {s : String} :
    identCodec.Written (.text s) ↔ TextPattern.isIdentifier s.toList = true := by
  have hwrite : identCodec.Written (.text s) ↔
      ∃ p, writeText .alphaLodash .alphaNumLodash .nameLength s.toList = .ok p := Iff.rfl
  have hhead : Codec.headLength .alphaLodash .alphaNumLodash = 1 := rfl
  simp only [hwrite, Codec.writeText_eq_ok, exists_and_left, exists_eq, and_true, hhead]
  cases s.toList with
  | nil => simp [TextPattern.isIdentifier]
  | cons c cs =>
    simp [TextPattern.isIdentifier, Codec.checkChars_cons, Charset.contains, Bounds.nameLength]
    constructor
    · rintro ⟨hlength, hhead, htail⟩
      exact ⟨⟨hhead, htail⟩, by omega⟩
    · rintro ⟨⟨hhead, htail⟩, hlength⟩
      exact ⟨by omega, hhead, htail⟩

/-- The names of characters are identifiers. -/
theorem Charset.isIdentifier_charName {cs : Charset} {c : Char} (h : c ∈ cs.chars) :
    TextPattern.isIdentifier (charName c).toList = true := by
  have hall : (printables.all fun c => TextPattern.isIdentifier (charName c).toList) = true := by
    decide +kernel
  exact List.all_eq_true.1 hall c (List.mem_of_mem_filter h)

/-- No identifier ends in a line feed. -/
theorem not_isIdentifier_concat (cs : List Char) :
    TextPattern.isIdentifier (cs ++ ['\n']) = false := by
  cases cs with
  | nil => decide
  | cons c cs => simp [TextPattern.isIdentifier, show '\n'.isAlphanum = false by decide]

/-- A text with a surrogate is no name. -/
theorem not_written_broken (t : BrokenText) : ¬ identCodec.Written (.broken t) := by
  rintro ⟨p, hp⟩
  exact refuseText_ne_ok hp

theorem not_written_lineFeed (t : String) : ¬ identCodec.Written (.text (t ++ "\n")) := by
  rw [written_identCodec_iff, String.toList_append]
  exact Bool.eq_false_iff.1 (not_isIdentifier_concat t.toList)

/-- The pattern accepts an identifier, and an identifier with a line feed behind it. -/
theorem accepts_identifier_iff {s : String} : TextPattern.identifier.accepts s = true ↔
    identCodec.Written (.text s) ∨ ∃ t, s = t ++ "\n" ∧ identCodec.Written (.text t) := by
  simp only [written_identCodec_iff]
  have hchomp : ∀ t : String, Text.chomp (t ++ "\n").toList = t.toList := by
    intro t
    simp [Text.chomp, String.toList_append]
  unfold TextPattern.accepts
  rw [Bool.or_eq_true]
  constructor
  · rintro (h | h)
    · exact .inl h
    · by_cases hlast : s.toList.getLast? = some '\n'
      · refine .inr ⟨String.ofList s.toList.dropLast, ?_, ?_⟩
        · rw [← String.toList_inj, String.toList_append, String.toList_ofList]
          exact (List.dropLast_append_getLast? _ hlast).symm
        · rwa [Text.chomp, if_pos hlast, ← String.toList_ofList (l := s.toList.dropLast)] at h
      · rw [Text.chomp, if_neg hlast] at h
        exact .inl h
  · rintro (h | ⟨t, rfl, h⟩)
    · exact .inl h
    · exact .inr (by rwa [hchomp])

/-! ## Names in documents -/

/-- A **position** of a name in a declaration. -/
inductive NamePosition where
  | member
  | variant
  | field

/-- A declaration with one name at a position. -/
def NamePosition.declare : NamePosition → Value → Value
  | member, name => Declaration.entries [("enum", .map [(name, .int 0)])]
  | variant, name => Declaration.entries [("union", .map [
      (name, Declaration.entries [("tag", .int 0), ("type", .text "U8")])])]
  | field, name => Declaration.entries [("struct", .list [.map [(name, .text "U8")]])]

namespace DocumentSchema

/-- The form of declarations looks at names by the pattern of identifiers, wherever they stand. -/
theorem isEmpty_errors_declare (p : NamePosition) (name : Value) (place : Place) :
    (declaration.errors place (p.declare name)).isEmpty = isIdentifier name := by
  have hu8 : TextPattern.reference.accepts "U8" = true := by decide
  cases h : isIdentifier name <;> cases p <;>
    simp [declaration, errors, countAccepting, NamePosition.declare, h, Declaration.entries, form,
      errorUnless, errorsOfFields, admitsCount, Value.entry?, Value.lookup?, Value.same, Value.ofFields,
      typeReference, byte, unionVariant, structField, hu8]

end DocumentSchema

namespace Form

/-- The names that a form gives to its members, variants or fields. -/
def names : Form → List String
  | enumeration members => members.map Prod.fst
  | union variants => variants.map Prod.fst
  | struct fields => fields.map Prod.fst
  | _ => []

open DocumentSchema

/-- The keys of an accepted mapping are identifiers. -/
theorem accepts_of_mem_dictionary {min : Nat} {max : Option Nat} {item : DocumentSchema}
    {entries : List (Value × Value)} (h : (dictionary min max item).Accepts (.map entries))
    {s : String} (hs : .text s ∈ entries.map Prod.fst) : TextPattern.identifier.accepts s = true := by
  obtain ⟨place, h⟩ := h
  simp only [errors, List.append_eq_nil_iff, errorUnless_eq_nil, List.flatMap_eq_nil_iff] at h
  obtain ⟨e, he, hkey⟩ := List.mem_map.1 hs
  have hidentifier := h.1.2 e he
  rwa [hkey] at hidentifier

/-- What a record has under a key is accepted by the field of this name. -/
theorem exists_field_of_entry? {required : List String} {fields : List (String × DocumentSchema)}
    {v x : Value} {key : String} (h : HasFields required fields v) (hx : v.entry? key = some x) :
    ∃ content, (key, content) ∈ fields ∧ content.Accepts x := by
  by_cases hkey : key ∈ fields.map Prod.fst
  · obtain ⟨f, hf, rfl⟩ := List.mem_map.1 hkey
    exact ⟨f.2, hf, h.accepted f hf x hx⟩
  · rw [h.known key hkey] at hx
    cases hx

/-- What an accepted declaration has under one of the keys of forms with names. -/
theorem accepts_content {decl x : Value} {key : String} (h : declaration.Accepts decl)
    (hx : decl.entry? key = some x) :
    (key = "enum" → (dictionary 1 (some 255) byte).Accepts x) ∧
      (key = "union" → (dictionary 1 (some 255) unionVariant).Accepts x) ∧
      (key = "struct" → (DocumentSchema.list 1 (some 255) false structField).Accepts x) := by
  obtain ⟨s, hs, h⟩ := h.exists_alternative
  simp only [List.mem_cons, List.not_mem_nil, or_false] at hs
  rcases hs with rfl | rfl | rfl | rfl | rfl | rfl | rfl | rfl | rfl | rfl | rfl | rfl | rfl
  · obtain ⟨s, rfl⟩ := h.eq_text (by decide)
    cases hx
  all_goals
    obtain ⟨content, hcontent, haccepts⟩ := exists_field_of_entry? h.hasFields hx
    simp only [bounds, List.mem_cons, Prod.mk.injEq, List.not_mem_nil, or_false] at hcontent
    grind

/-- The names of a form stand in the declaration. -/
theorem exists_content_of_mem_names {decl : Value} {form : Form} (hform : ofValue? decl = some form)
    {name : String} (hname : name ∈ form.names) :
    (∃ key entries, (key = "enum" ∨ key = "union") ∧ decl.entry? key = some (.map entries) ∧
      .text name ∈ entries.map Prod.fst) ∨
    ∃ v items ty, decl.entry? "struct" = some v ∧ v.items? = some items ∧
      .map [(.text name, ty)] ∈ items := by
  simp only [ofValue?, Option.bind_eq_bind, Option.pure_def] at hform
  split at hform
  · obtain ⟨_, -, ⟨⟩⟩ := Option.bind_eq_some_iff.1 hform
    cases hname
  split at hform
  · cases hform
    cases hname
  split at hform
  · rename_i v hv
    obtain ⟨members, hmembers, ⟨⟩⟩ := Option.bind_eq_some_iff.1 hform
    rw [eq_of_membersOf? hmembers] at hv
    refine .inl ⟨_, _, .inl rfl, hv, ?_⟩
    obtain ⟨m, hm, rfl⟩ := List.mem_map.1 hname
    simpa using ⟨m.2, hm⟩
  split at hform
  · rename_i v hv
    obtain ⟨variants, hvariants, ⟨⟩⟩ := Option.bind_eq_some_iff.1 hform
    obtain ⟨ps, rfl, rfl, -⟩ := eq_of_variantsOf? hvariants
    refine .inl ⟨_, _, .inr rfl, hv, ?_⟩
    obtain ⟨x, hx, rfl⟩ := List.mem_map.1 hname
    obtain ⟨p, hp, rfl⟩ := List.mem_map.1 hx
    simpa using ⟨_, _, _, hp⟩
  split at hform
  · obtain ⟨_, -, ⟨⟩⟩ := Option.bind_eq_some_iff.1 hform
    cases hname
  split at hform
  · obtain ⟨_, -, hform⟩ := Option.bind_eq_some_iff.1 hform
    obtain ⟨_, -, ⟨⟩⟩ := Option.bind_eq_some_iff.1 hform
    cases hname
  split at hform
  · rename_i v hv
    obtain ⟨items, hitems, hform⟩ := Option.bind_eq_some_iff.1 hform
    obtain ⟨fields, hfields, ⟨⟩⟩ := Option.bind_eq_some_iff.1 hform
    obtain rfl := Draft.map_of_mapM_eq_some (fun _ _ h => (eq_of_fieldOf? h).symm) hfields
    obtain ⟨f, hf, rfl⟩ := List.mem_map.1 hname
    exact .inr ⟨v, _, _, hv, hitems, List.mem_map_of_mem hf⟩
  -- the forms that are left give no names
  have hbind : ∀ {α : Type} {x : Option α} {f : α → Option Form}, x.bind f = some form →
      (∀ a, f a = some form → form.names = []) → form.names = [] := by
    intro α x f h hf
    obtain ⟨a, -, ha⟩ := Option.bind_eq_some_iff.1 h
    exact hf a ha
  have hnone : form.names = [] := by
    split at hform
    · exact hbind hform fun _ h => hbind h fun _ h => hbind h fun _ h => by cases h; rfl
    split at hform
    · exact hbind hform fun _ h => hbind h fun _ h => hbind h fun _ h => by cases h; rfl
    split at hform
    · exact hbind hform fun _ h => hbind h fun _ h => hbind h fun _ h => hbind h fun _ h => by
        cases h; rfl
    split at hform
    · exact hbind hform fun _ h => hbind h fun _ h => hbind h fun _ h => by cases h; rfl
    split at hform
    · refine hbind hform fun _ h => ?_
      split at h
      · exact hbind h fun _ h => hbind h fun _ h => hbind h fun _ h => hbind h fun _ h => by
          cases h; rfl
      · cases h
    · cases hform
  rw [hnone] at hname
  cases hname

/-- The names of a form are identifiers, apart from a line feed. -/
theorem accepts_of_mem_names {decl : Value} {form : Form} (h : declaration.Accepts decl)
    (hform : ofValue? decl = some form) {name : String} (hname : name ∈ form.names) :
    TextPattern.identifier.accepts name = true := by
  rcases exists_content_of_mem_names hform hname with
    ⟨key, entries, rfl | rfl, hx, hmem⟩ | ⟨v, items, ty, hv, hitems, hmem⟩
  · exact accepts_of_mem_dictionary ((accepts_content h hx).1 rfl) hmem
  · exact accepts_of_mem_dictionary ((accepts_content h hx).2.1 rfl) hmem
  · obtain ⟨items', rfl, hall⟩ := ((accepts_content h hv).2.2 rfl).eq_list
    obtain rfl := Option.some.inj hitems
    exact accepts_of_mem_dictionary (hall _ hmem) (List.mem_singleton.2 rfl)

end Form

/-! ## Names in definitions -/

namespace TypeDef

/-- The names that a definition gives to its members, variants or fields. -/
def names : TypeDef → List String
  | .enumeration members => members.map Prod.fst
  | .union variants => variants.map fun x => x.2.1
  | .struct fields => fields.map Prod.fst
  | _ => []

open Codec

/-- A record that a union of records writes is written by the variant of its type. -/
theorem written_of_union {name type : String} {variants : List (Nat × String × Codec)}
    {vs : List (String × Value)} (h : RecordVariants variants)
    (hwritten : (union name variants).Written (.record type vs)) :
    ∃ x ∈ variants, recordType? x.2.2 = some type ∧ x.2.2.Written (.record type vs) := by
  obtain ⟨p, hp⟩ := hwritten
  rw [write_union_record, h.writeAccepted_eq_ok] at hp
  obtain ⟨x, hx, htype, q, hq, -⟩ := hp
  exact ⟨x, hx, htype, q, hq⟩

/-- The names of a definition that is written are written. -/
theorem written_of_mem_names {d : TypeDef} (h : codec.Written d.toValue) {name : String}
    (hname : name ∈ d.names) : identCodec.Written (.text name) := by
  have h := @written_of_union _ _ variants _ recordVariants h
  -- of the ten variants the one of the kind of the definition is left
  cases d <;>
    simp only [toDraft, Definition.mapParts, Definition.kindName, variants, codec, List.mem_cons,
      List.not_mem_nil, or_false, exists_eq_or_imp, exists_eq_left, recordType?, Option.some.injEq,
      String.reduceEq, false_and, false_or, true_and] at h <;>
    rw [written_record_iff (by decide) rfl] at h
  case enumeration members =>
    obtain ⟨m, hm, rfl⟩ := List.mem_map.1 hname
    have hmember := List.forall_mem_map.1 (List.forall_mem_map.1 (written_list_iff.1 h.1).2) m hm
    exact ((written_record_iff (by decide) rfl).1 hmember).1
  case union vs =>
    obtain ⟨x, hx, rfl⟩ := List.mem_map.1 hname
    have hvariant := List.forall_mem_map.1 (List.forall_mem_map.1 (written_of_mapping h.1)) x hx
    exact ((written_record_iff (by decide) rfl).1 hvariant.2).1
  case struct fields =>
    obtain ⟨f, hf, rfl⟩ := List.mem_map.1 hname
    have hfield := List.forall_mem_map.1 (List.forall_mem_map.1 (written_list_iff.1 h.1).2) f hf
    exact ((written_record_iff (by decide) rfl).1 hfield).1
  all_goals cases hname

end TypeDef

/-! ## Errors about names -/

/-- An error **blames** a text when its cause is that for which the text is no name of a definition. -/
def StrictError.Blames (e : StrictError) (s : String) : Prop :=
  identCodec.write (.text s) = fail e.cause

/-- A cause for which a text is no name: its length, or one of its characters. -/
def Cause.AboutText : Cause → Prop
  | .stringLength .. | .charNotAllowed .. => True
  | _ => False

/-- A string is refused for its length or for one of its characters. -/
theorem failsWithin_writeText (first rest : Charset) (b : Bounds) (cs : List Char) :
    FailsWithin (fun e => e.cause.AboutText) (writeText first rest b cs) := by
  have hchars : ∀ (first : Charset) (i : Nat),
      FailsWithin (fun e => e.cause.AboutText) (checkChars rest first i cs) := by
    induction cs with
    | nil => exact fun _ _ => failsWithin_ok ()
    | cons c cs ih =>
      intro first i
      rw [checkChars]
      split
      · exact ih rest (i + 1)
      · exact failsWithin_fail trivial
  unfold writeText
  refine FailsWithin.bind ?_ fun _ _ => (hchars first 0).bind fun _ _ => failsWithin_ok _
  unfold checkTextLength
  split
  · exact failsWithin_ok ()
  · exact failsWithin_fail trivial

namespace StrictError

variable {e : StrictError} {s : String}

theorem blames_within (segment : String) : (e.within segment).Blames s ↔ e.Blames s := by
  rw [Blames, cause_within, Blames]

theorem Blames.aboutText (h : e.Blames s) : e.cause.AboutText :=
  failsWithin_writeText _ _ _ _ ⟨e.cause, []⟩ h

/-- An error **blames only** texts with a property when it blames one of them, if any. -/
def BlamesOnly (P : String → Prop) (e : StrictError) : Prop :=
  ∀ s, e.Blames s → ∃ name, P name ∧ e.Blames name

variable {P : String → Prop}

/-- An error about something else than a text blames none. -/
theorem blamesOnly_of_cause (h : ¬ e.cause.AboutText) : e.BlamesOnly P :=
  fun _ hs => absurd hs.aboutText h

theorem BlamesOnly.within (h : e.BlamesOnly P) (segment : String) : (e.within segment).BlamesOnly P := by
  intro s hs
  obtain ⟨name, hname, hblames⟩ := h s ((blames_within segment).1 hs)
  exact ⟨name, hname, (blames_within segment).2 hblames⟩

end StrictError

/-- A computation that **blames only** texts with a property: its errors do. -/
abbrev BlamesOnly {α : Type} (P : String → Prop) (x : Except Failure α) : Prop :=
  FailsWithin (StrictError.BlamesOnly P) x

section

variable {α : Type} {P : String → Prop}

theorem blamesOnly_fail {cause : Cause} (h : ¬ cause.AboutText) :
    BlamesOnly P (fail cause : Except Failure α) :=
  failsWithin_fail (StrictError.blamesOnly_of_cause h)

variable {x : Except Failure α}

/-- At which place a text is blamed does not matter. -/
theorem BlamesOnly.within (hx : BlamesOnly P x) (segment : String) :
    FailsWithin (fun e => (e.within segment).BlamesOnly P) x :=
  hx.imp fun _ he => he.within segment

theorem BlamesOnly.inside (hx : BlamesOnly P x) (segment : String) : BlamesOnly P (inside segment x) :=
  failsWithin_inside (hx.within segment)

theorem BlamesOnly.insideEntry (hx : BlamesOnly P x) (key : Value) :
    BlamesOnly P (insideEntry key x) :=
  failsWithin_insideEntry fun _ _ => hx.within _

namespace Codec

/-- A number blames nothing. -/
theorem blamesOnly_ofNat (size n : Nat) : BlamesOnly P ((uint size).write (.ofNat n)) := by
  have hoctets : ∀ (m : Int) (octets : Option Octets) (codec : String),
      BlamesOnly P ((Value.ofNat n).integerOctets m octets codec) := by
    intro m octets codec
    unfold Value.integerOctets
    split <;> split
    · exact failsWithin_misuse _
    · exact failsWithin_ok _
    · exact failsWithin_misuse _
    · exact blamesOnly_fail not_false
  rw [write, writeUInt]
  exact (failsWithin_ok (n : Int)).bind fun m _ => hoctets m _ _

/-- A mapping blames what its keys and values blame. -/
theorem blamesOnly_mapping {key value : Codec} {b : Bounds} {label : Option String}
    {es : List (Value × Value)}
    (hes : ∀ e ∈ es, BlamesOnly P (key.write e.1) ∧ BlamesOnly P (value.write e.2)) :
    BlamesOnly P ((map key value b .mapping label).write (.map es)) := by
  have hitems : Value.mapItems .mapping (.map es) = .ok (es.map fun e => .tuple [e.1, e.2]) := rfl
  rw [write, hitems]
  refine (failsWithin_ok _).bind fun _ hok => ?_
  obtain rfl := Except.ok.inj hok
  refine FailsWithin.bind (failsWithin_mapM ?_) fun entries hentries => ?_
  · refine List.forall_mem_map.2 fun e he => ?_
    exact ((hes e he).1.insideEntry _).bind fun _ _ => failsWithin_ok _
  -- what is sorted are the entries of the mapping
  have hmem : ∀ x ∈ entries, x.2 ∈ es := by
    obtain ⟨ps, hps, rfl, hround⟩ := mapM_eq_ok.1 hentries
    refine List.forall_mem_map.2 fun q hq => ?_
    obtain ⟨e, he, heq⟩ := List.mem_map.1 (hps ▸ List.mem_map_of_mem hq : q.1 ∈ es.map _)
    have hq' := hround q hq
    rw [← heq, Value.unpair_tuple] at hq'
    obtain ⟨_, hpair, hq'⟩ := bind_eq_ok.1 hq'
    obtain rfl := Except.ok.inj hpair
    obtain ⟨raw, -, hq'⟩ := bind_eq_ok.1 hq'
    rw [← Except.ok.inj hq']
    exact he
  refine FailsWithin.bind ?_ fun sorted hsorted => FailsWithin.bind ?_ fun _ _ =>
    (failsWithin_mapM fun x hx => ?_).bind fun _ _ => failsWithin_ok _
  · intro e he
    obtain ⟨octets, -, heq⟩ := ascending_eq_error_iff.1 he
    cases heq
    exact StrictError.blamesOnly_of_cause not_false
  · intro e he
    obtain ⟨-, heq⟩ := checkEntries_eq_error.1 he
    cases heq
    exact StrictError.blamesOnly_of_cause not_false
  · have he := hes x.2 (hmem x ((ascending_eq_ok.1 hsorted).1.mem_iff.1 hx))
    exact (he.2.insideEntry _).bind fun _ _ => failsWithin_ok _

/-- A record blames what the variant of its type blames. -/
theorem blamesOnly_union {name type : String} {variants : List (Nat × String × Codec)}
    {vs : List (String × Value)}
    (h : ∀ x ∈ variants, x.2.2.accepts (.record type vs) = true →
      BlamesOnly P (x.2.2.write (.record type vs))) :
    BlamesOnly P ((union name variants).write (.record type vs)) := by
  rw [write_union_record]
  induction variants with
  | nil => exact blamesOnly_fail not_false
  | cons x variants ih =>
    rw [List.forall_mem_cons] at h
    rw [writeAccepted]
    split
    · rename_i haccepts
      exact ((h.1 haccepts).inside _).bind fun _ _ => failsWithin_ok _
    · exact ih h.2

end Codec

end

namespace TypeDef

open Codec

variable {P : String → Prop}

/-- A definition whose names are written, or have the property, blames only texts with the property. -/
theorem blamesOnly_write {d : TypeDef}
    (hnames : ∀ name ∈ d.names, identCodec.Written (.text name) ∨ P name) :
    BlamesOnly P (codec.write d.toValue) := by
  have hname : ∀ name, identCodec.Written (.text name) ∨ P name →
      BlamesOnly P (identCodec.write (.text name)) := by
    rintro name (⟨p, hp⟩ | hname)
    · rw [hp]
      exact failsWithin_ok p
    · rintro ⟨cause, path⟩ he s -
      obtain rfl : path = [] := (failsBare_write (c := identCodec) (by trivial) _ _ he).path_eq
      exact ⟨name, hname, he⟩
  have hid : ∀ sid, BlamesOnly P ((Codec.id .sem).write (Draft.idValue sid)) := fun sid => by
    rw [Draft.idValue, write_id]
    exact failsWithin_ok _
  have hsizing : ∀ min max : Nat,
      BlamesOnly P (sizingCodec.write (Draft.sizingValue (.ofNat min) (.ofNat max))) := fun min max =>
    failsWithin_record (by decide)
      ⟨rfl, (blamesOnly_ofNat _ _).within _, rfl, (blamesOnly_ofNat _ _).within _, trivial⟩
  have hlist : ∀ {item : Codec} {b : Bounds} {label : Option String} {vs : List Value},
      (∀ v ∈ vs, BlamesOnly P (item.write v)) → BlamesOnly P ((list item b label).write (.tuple vs)) :=
    fun h => failsWithin_list (StrictError.blamesOnly_of_cause not_false) fun _ v hv => (h v hv).within _
  refine blamesOnly_union ?_
  -- of the ten variants the one of the kind of the definition is left
  cases d <;>
    simp only [List.forall_mem_cons, accepts, toDraft, Definition.mapParts, Definition.kindName,
      beq_iff_eq, String.reduceEq, false_implies, true_implies, true_and, List.not_mem_nil,
      implies_true, and_true] <;>
    refine failsWithin_record (by decide) ?_
  case enumeration members =>
    refine ⟨rfl, (hlist ?_).within _, trivial⟩
    refine List.forall_mem_map.2 (List.forall_mem_map.2 fun m hm => failsWithin_record (by decide) ?_)
    exact ⟨rfl, (hname _ (hnames _ (List.mem_map_of_mem hm))).within _, rfl,
      (blamesOnly_ofNat _ _).within _, trivial⟩
  case union variants =>
    refine ⟨rfl, (blamesOnly_mapping ?_).within _, trivial⟩
    refine List.forall_mem_map.2 (List.forall_mem_map.2 fun x hx => ⟨blamesOnly_ofNat _ _, ?_⟩)
    exact failsWithin_record (by decide)
      ⟨rfl, (hname _ (hnames _ (List.mem_map_of_mem hx))).within _, rfl, (hid _).within _, trivial⟩
  case tuple items =>
    exact ⟨rfl, (hlist (List.forall_mem_map.2 fun sid _ => hid sid)).within _, trivial⟩
  case struct fields =>
    refine ⟨rfl, (hlist ?_).within _, trivial⟩
    refine List.forall_mem_map.2 (List.forall_mem_map.2 fun f hf => failsWithin_record (by decide) ?_)
    exact ⟨rfl, (hname _ (hnames _ (List.mem_map_of_mem hf))).within _, rfl, (hid _).within _, trivial⟩
  case primitive width => exact ⟨rfl, (blamesOnly_ofNat _ _).within _, trivial⟩
  case unicode => trivial
  case array item length => exact ⟨rfl, (hid _).within _, rfl, (blamesOnly_ofNat _ _).within _, trivial⟩
  case list item min max | set item min max =>
    exact ⟨rfl, (hid _).within _, rfl, (hsizing _ _).within _, trivial⟩
  case map key value min max =>
    exact ⟨rfl, (hid _).within _, rfl, (hid _).within _, rfl, (hsizing _ _).within _, trivial⟩

end TypeDef

end StrictContract
