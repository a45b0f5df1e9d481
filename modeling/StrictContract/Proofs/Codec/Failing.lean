import StrictContract.Proofs.Codec.Canonical
import StrictContract.Proofs.Codec.Iteration

/-! # Failing — with which errors writing fails

A computation **fails within** a property when every strict error that it fails with has the property.
That is kept by the steps that writers are made of, so it is enough to look at the places where an error
is made, and at the segments that are put in front of its path. What is made of no parts fails with
errors that name no place and are no mismatches of identifiers, which only checks can find; a record
fails at one of its fields. -/

namespace StrictContract

/-! ## Paths -/

namespace StrictError

/-- Adding a segment to the path does not change the kind of an error. -/
@[simp] theorem kind_within (segment : String) (e : StrictError) :
    (e.within segment).kind = e.kind := by
  rw [within]
  split <;> rfl

theorem cause_within (segment : String) (e : StrictError) : (e.within segment).cause = e.cause := by
  rw [within]
  split <;> rfl

/-- A segment comes in front of the path. -/
theorem path_within {segment : String} (h : segment ≠ "") (e : StrictError) :
    (e.within segment).path = segment :: e.path := by
  rw [within, if_neg (mt String.isEmpty_iff.1 h)]

/-- A segment comes in front of the path unless it is empty. -/
theorem path_within_eq_filter (segment : String) (e : StrictError) :
    (e.within segment).path = [segment].filter (· ≠ "") ++ e.path := by
  by_cases h : segment = ""
  · simp [h, within]
  · simp [h, path_within h]

/-- Segments **joined** to one text, outermost first: a dot stands before every segment but the first
one and those that begin with a bracket. -/
def joinSegments : List String → String
  | [] => ""
  | first :: rest => rest.foldl (fun text segment =>
      if segment.startsWith "[" then text ++ segment else text ++ "." ++ segment) first

/-- The field of an error joins the segments of its path. -/
theorem field_eq_joinSegments (e : StrictError) : e.field = joinSegments e.path := by
  obtain ⟨cause, path⟩ := e
  cases path with
  | nil => rfl
  | cons first rest =>
    show first ++ String.join (rest.map joined) = joinSegments (first :: rest)
    induction rest generalizing first with
    | nil => exact String.append_empty
    | cons segment rest ih =>
      have hstep : first ++ joined segment =
          if segment.startsWith "[" then first ++ segment else first ++ "." ++ segment := by
        unfold joined
        split
        · rfl
        · exact (String.append_assoc ..).symm
      rw [List.map_cons, String.join_cons, ← String.append_assoc, ih, hstep]
      rfl

theorem joined_of_head {segment : String} (h : segment.toList.head? ≠ some '[') :
    joined segment = "." ++ segment := by
  rw [joined, if_neg]
  rw [String.startsWith_string_iff]
  rintro ⟨rest, hrest⟩
  rw [← hrest] at h
  exact h rfl

@[simp] theorem joined_indexSegment (i : Nat) : joined (indexSegment i) = indexSegment i := by
  rw [joined, if_pos]
  rw [String.startsWith_string_iff]
  show "[".toList <+: ("[" ++ i.repr ++ "]").toList
  rw [String.append_assoc, String.toList_append]
  exact List.prefix_append ..

end StrictError

/-- The segment for an item is never empty. -/
theorem indexSegment_ne_empty (i : Nat) : indexSegment i ≠ "" := by
  intro h
  have hlength := congrArg String.length h
  simp [indexSegment] at hlength

/-! ## Properties of errors -/

section

variable {α β : Type} {P : StrictError → Prop}

/-- A computation **fails within** a property when its strict errors have it. -/
def FailsWithin (P : StrictError → Prop) (x : Except Failure α) : Prop :=
  ∀ e, x = .error (.strict e) → P e

theorem FailsWithin.imp {Q : StrictError → Prop} {x : Except Failure α} (h : FailsWithin P x)
    (hPQ : ∀ e, P e → Q e) : FailsWithin Q x :=
  fun e he => hPQ e (h e he)

theorem failsWithin_ok (a : α) : FailsWithin P (.ok a : Except Failure α) := by
  rintro e ⟨⟩

theorem failsWithin_misuse (m : Misuse) : FailsWithin P (misuse m : Except Failure α) := by
  rintro e ⟨⟩

theorem failsWithin_fail {cause : Cause} (h : P ⟨cause, []⟩) :
    FailsWithin P (fail cause : Except Failure α) := by
  rintro e ⟨⟩
  exact h

/-- A step and what follows it fail within a property when both do. -/
theorem FailsWithin.bind {x : Except Failure α} {f : α → Except Failure β} (hx : FailsWithin P x)
    (hf : ∀ a, x = .ok a → FailsWithin P (f a)) : FailsWithin P (x >>= f) := by
  cases x with
  | error e => exact fun e' he => hx e' (congrArg _ (Except.error.inj he))
  | ok a => exact hf a rfl

/-- A guarded computation fails within a property when the guard and the computation do. -/
theorem failsWithin_guard {b : Prop} [Decidable b] {x : Except Failure Unit}
    {f : Unit → Except Failure α} (hx : FailsWithin P x) (hf : ∀ u, FailsWithin P (f u)) :
    FailsWithin P (if b then x >>= f else f ()) := by
  split
  · exact hx.bind fun u _ => hf u
  · exact hf ()

/-- A loop fails within a property when its rounds do. -/
theorem failsWithin_mapM {f : α → Except Failure β} {xs : List α}
    (h : ∀ a ∈ xs, FailsWithin P (f a)) : FailsWithin P (xs.mapM f) := by
  intro e he
  obtain ⟨a, ha, he⟩ := exists_round_of_mapM he
  exact h a ha e he

/-- Naming the place of a computation puts a segment in front of the paths of its errors. -/
theorem failsWithin_inside {segment : String} {x : Except Failure α}
    (h : FailsWithin (fun e => P (e.within segment)) x) : FailsWithin P (inside segment x) := by
  cases x with
  | ok a => exact failsWithin_ok a
  | error f =>
    intro e he
    cases f with
    | strict e' =>
      cases he
      exact h e' rfl
    | _ => cases he

/-- Labels and the renderings of values are refused as a misuse only. -/
theorem Value.failsWithin_labelled (v : Value) : FailsWithin P v.labelled := by
  unfold labelled
  split <;> split
  all_goals first | exact failsWithin_misuse _ | exact failsWithin_ok _

theorem Value.failsWithin_shown (v : Value) : FailsWithin P v.shown := by
  unfold shown
  split
  · exact failsWithin_misuse _
  · exact failsWithin_ok _

/-- So is a value that cannot be looped over, or that is no pair. -/
theorem Value.failsWithin_iterate (v : Value) : FailsWithin P v.iterate := by
  unfold iterate
  split
  · exact failsWithin_ok _
  · exact failsWithin_misuse _

theorem Value.failsWithin_unpair (v : Value) : FailsWithin P v.unpair := by
  refine v.failsWithin_iterate.bind fun items _ => ?_
  split
  · exact failsWithin_ok _
  · exact failsWithin_misuse _
  · exact failsWithin_misuse _

/-- Naming the entry of a computation puts the label of the entry in front of the paths of its errors. -/
theorem failsWithin_insideEntry {key : Value} {x : Except Failure α}
    (h : ∀ label, key.labelled = .ok label →
      FailsWithin (fun e => P (e.within (entrySegment label))) x) :
    FailsWithin P (insideEntry key x) := by
  cases x with
  | ok a => exact failsWithin_ok a
  | error f =>
    cases f with
    | strict e =>
      exact key.failsWithin_labelled.bind fun label hlabel => failsWithin_inside (h label hlabel)
    | _ =>
      intro e he
      cases he

end

/-! ## Bare errors -/

/-- A **bare** error names no place, and is no mismatch of identifiers. -/
structure StrictError.Bare (e : StrictError) : Prop where
  path_eq : e.path = []
  kind_ne : e.kind ≠ .identifierMismatch

/-- A computation that **fails bare** has only bare errors. -/
abbrev FailsBare {α : Type} (x : Except Failure α) : Prop := FailsWithin StrictError.Bare x

/-- A bare failure with a cause. -/
theorem failsBare_fail {α : Type} {cause : Cause}
    (h : decide (cause.kind = .identifierMismatch) = false) :
    FailsBare (fail cause : Except Failure α) :=
  failsWithin_fail ⟨rfl, of_decide_eq_false h⟩

namespace Value

variable (v : Value)

theorem failsBare_field (name : String) : FailsBare (v.field name) := by
  unfold field
  split <;> split
  · exact failsWithin_ok _
  · exact failsBare_fail rfl
  · exact failsWithin_ok _
  · exact failsBare_fail rfl

theorem failsBare_integer : FailsBare v.integer := by
  unfold integer
  split
  · exact failsWithin_ok _
  · split
    · exact failsWithin_misuse _
    · exact failsWithin_ok _
  · exact failsBare_fail rfl

theorem failsBare_integerOctets (n : Int) (octets : Option Octets) (codec : String) :
    FailsBare (v.integerOctets n octets codec) := by
  unfold integerOctets
  split <;> split
  · exact failsWithin_misuse _
  · exact failsWithin_ok _
  · exact failsWithin_misuse _
  · exact failsBare_fail rfl

theorem failsBare_octets : FailsBare v.octets := by
  unfold octets
  split
  · exact failsWithin_ok _
  · exact failsBare_fail rfl

theorem failsBare_mapItems (form : MapForm) : FailsBare (v.mapItems form) := by
  unfold mapItems
  split
  all_goals first | exact failsWithin_ok _ | exact failsBare_fail rfl

end Value

theorem Enumeration.failsBare_lookUp (decl : Enumeration) (v : Value) : FailsBare (decl.lookUp v) := by
  unfold lookUp
  dsimp only
  refine failsWithin_guard (failsWithin_misuse _) fun _ =>
    failsWithin_guard (failsWithin_misuse _) fun _ => ?_
  cases v.number?.bind decl.find? with
  | some found => exact failsWithin_ok _
  | none =>
    exact v.failsWithin_shown.bind fun _ _ =>
      failsWithin_guard (failsWithin_misuse _) fun _ => failsWithin_ok _

namespace Bounds

theorem failsBare_checkEntries (b : Bounds) (n : Nat) : FailsBare (b.checkEntries n) := by
  unfold checkEntries
  split
  · exact failsWithin_ok _
  · exact failsBare_fail rfl

theorem failsBare_checkOctets (b : Bounds) (n : Nat) : FailsBare (b.checkOctets n) := by
  unfold checkOctets
  split
  · exact failsWithin_ok _
  · exact failsBare_fail rfl

end Bounds

theorem failsBare_ascending {α : Type} (entries : List (Octets × α)) :
    FailsBare (ascending entries) := by
  unfold ascending
  dsimp only
  split
  · exact failsWithin_ok _
  · exact failsBare_fail rfl

theorem failsBare_checkChars (rest first : Charset) (i : Nat) (cs : List Char) :
    FailsBare (checkChars rest first i cs) := by
  induction cs generalizing first i with
  | nil => exact failsWithin_ok _
  | cons c cs ih =>
    rw [checkChars]
    split
    · exact ih _ _
    · exact failsBare_fail rfl

theorem failsBare_checkTextLength (head : Nat) (b : Bounds) (n : Nat) :
    FailsBare (checkTextLength head b n) := by
  unfold checkTextLength
  split
  · exact failsWithin_ok _
  · exact failsBare_fail rfl

theorem failsBare_writeText (first rest : Charset) (b : Bounds) (cs : List Char) :
    FailsBare (writeText first rest b cs) :=
  (failsBare_checkTextLength _ _ _).bind fun _ _ =>
    (failsBare_checkChars _ _ _ _).bind fun _ _ => failsWithin_ok _

theorem failsBare_refuseText (first rest : Charset) (b : Bounds) (t : BrokenText) :
    FailsBare (refuseText first rest b t) :=
  (failsBare_checkTextLength _ _ _).bind fun _ _ =>
    (failsBare_checkChars _ _ _ _).bind fun _ _ => failsBare_fail rfl

namespace Codec

theorem failsBare_writeArray (size : Nat) (v : Value) : FailsBare (writeArray size v) := by
  refine v.failsBare_octets.bind fun octets _ => ?_
  split
  · exact failsWithin_ok _
  · exact failsBare_fail rfl

/-- A **scalar** codec is made of no other ones. -/
def IsScalar : Codec → Prop
  | unit | bool | unicode | uint _ | sint _ | byteArray _ | id _ | bytes .. | ascii .. => True
  | enumeration _ => True
  | _ => False

/-- A scalar codec fails bare. -/
theorem failsBare_write {c : Codec} (hc : c.IsScalar) (v : Value) : FailsBare (c.write v) := by
  cases c with
  | unit =>
    rw [write.eq_def]
    dsimp only
    split
    · exact failsWithin_ok _
    · exact v.failsWithin_shown.bind fun _ _ => failsBare_fail rfl
  | bool =>
    rw [write.eq_def]
    dsimp only
    split
    · exact failsWithin_ok _
    · exact failsBare_fail rfl
  | unicode =>
    rw [write.eq_def]
    dsimp only
    split
    · exact failsWithin_ok _
    · exact v.failsWithin_shown.bind fun _ _ => failsBare_fail rfl
  | uint size | sint size =>
    rw [write]
    exact v.failsBare_integer.bind fun _ _ => v.failsBare_integerOctets _ _ _
  | byteArray size | id kind =>
    rw [write]
    exact failsBare_writeArray _ v
  | bytes b label =>
    rw [write]
    exact v.failsBare_octets.bind fun octets _ =>
      (b.failsBare_checkOctets _).bind fun _ _ => failsWithin_ok _
  | ascii first rest b label =>
    rw [write.eq_def]
    dsimp only
    split
    · exact failsBare_writeText _ _ _ _
    · exact failsBare_refuseText _ _ _ _
    · exact failsBare_fail rfl
  | enumeration decl =>
    rw [write]
    refine (decl.failsBare_lookUp v).bind fun found _ => ?_
    split
    · split
      · exact failsWithin_misuse _
      · exact failsWithin_ok _
    · exact v.failsWithin_shown.bind fun _ _ => failsBare_fail rfl
  | list | set | map | array | option | tuple | struct | union => exact hc.elim

end Codec

namespace Codec

/-! ## Places -/

section

variable {P : StrictError → Prop}

/-- Fields of which every one fails within a property below its name. -/
def FieldsFailWithin (P : StrictError → Prop) : List (String × Codec) → List (String × Value) → Prop
  | [], [] => True
  | (name, c) :: fields, (x, v) :: vs =>
    x = name ∧ FailsWithin (fun e => P (e.within name)) (c.write v) ∧ FieldsFailWithin P fields vs
  | _, _ => False

/-- Fields of such a kind are those of the struct. -/
theorem FieldsFailWithin.names {fields : List (String × Codec)} {vs : List (String × Value)}
    (h : FieldsFailWithin P fields vs) : vs.map Prod.fst = fields.map Prod.fst := by
  fun_induction FieldsFailWithin P fields vs with
  | case1 => rfl
  | case2 name c fields x v vs ih =>
    obtain ⟨rfl, -, h⟩ := h
    rw [List.map_cons, List.map_cons, ih h]
  | case3 => exact h.elim

/-- A record fails at one of its fields. -/
theorem failsWithin_record {name type : String} {fields : List (String × Codec)} {wrapped : Bool}
    {vs : List (String × Value)} (hnames : (fields.map Prod.fst).Nodup)
    (h : FieldsFailWithin P fields vs) :
    FailsWithin P ((struct name fields (.record type) wrapped).write (.record type vs)) := by
  -- the fields are asked of the whole record, so its own list of them stays fixed
  have hfields : ∀ (v : Value) (fields : List (String × Codec)) (vs : List (String × Value)),
      FieldsFailWithin P fields vs → (∀ x ∈ vs, v.field x.1 = .ok x.2) →
        FailsWithin P (writeFields fields v) := by
    intro v fields vs h hv
    fun_induction FieldsFailWithin P fields vs with
    | case1 => exact failsWithin_ok _
    | case2 name c fields x w vs ih =>
      obtain ⟨rfl, hw, h⟩ := h
      rw [List.forall_mem_cons] at hv
      rw [writeFields, hv.1]
      exact (failsWithin_inside hw).bind fun _ _ => (ih h hv.2).bind fun _ _ => failsWithin_ok _
    | case3 => exact h.elim
  rw [write_record]
  exact hfields _ _ _ h fun x hx => field_record (h.names ▸ hnames) hx

/-- A list fails as a whole, or at the position of one of its items. -/
theorem failsWithin_list {item : Codec} {b : Bounds} {label : Option String} {vs : List Value}
    (hlength : P ⟨.cardinality vs.length b.min b.max, []⟩)
    (h : ∀ i, ∀ v ∈ vs, FailsWithin (fun e => P (e.within (indexSegment i))) (item.write v)) :
    FailsWithin P ((list item b label).write (.tuple vs)) := by
  have hcheck : FailsWithin P (b.checkEntries vs.length) := by
    unfold Bounds.checkEntries
    split
    · exact failsWithin_ok _
    · exact failsWithin_fail hlength
  rw [write]
  refine (failsWithin_ok vs).bind fun _ hvs => ?_
  obtain rfl := Except.ok.inj hvs
  refine hcheck.bind fun _ _ => (failsWithin_mapM fun x hx => ?_).bind fun _ _ => failsWithin_ok _
  exact failsWithin_inside (h _ _ (List.fst_mem_of_mem_zipIdx hx))

end

end Codec

end StrictContract
