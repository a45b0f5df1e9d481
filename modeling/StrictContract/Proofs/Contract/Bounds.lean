import Mathlib.Data.List.Nodup
import StrictContract.Proofs.Contract.Places
import StrictContract.Proofs.Contract.Returning

/-! # Bounds — what is reported of fields that occur too seldom or too often

The shape of an operation **lists** fields, each with a bound on how often it occurs, and the check of
an operation counts all of them, whether the operation carries them or not. A violation that a check
finds elsewhere never expects a bound, and no two listed fields stand at one place. So a report has for
every listed field one violation that expects its bound there if the field is out of it, and none
otherwise. Nothing is reported at all exactly if the operation conforms to its schema. -/

namespace StrictContract

/-! ## Places of types -/

/-- Integers that are closed by the same character are apart unless they are the same. -/
theorem apart_integers {m n : Int} (h : m ≠ n) : Apart (m.repr ++ "]") (n.repr ++ "]") := by
  -- a minus sign is no digit
  have hsign : ∀ (k l : Nat), Apart (k.repr ++ "]") ("-" ++ (l.repr ++ "]")) := by
    intro k l
    obtain ⟨c, hc⟩ : ∃ c, (Nat.toDigits 10 k).head? = some c :=
      List.isSome_head?.2 Nat.toDigits_ne_nil |> Option.isSome_iff_exists.1
    have hhead : (k.repr ++ "]").toList.head? = some c := by
      rw [String.toList_append, Nat.toList_repr, List.head?_append, hc, Option.some_or]
    have hminus : ("-" ++ (l.repr ++ "]")).toList.head? = some '-' := by
      rw [String.toList_append]
      rfl
    refine apart_of_heads hhead hminus ?_
    rintro rfl
    have hdigit := Nat.isDigit_of_mem_toDigits (by decide) (by decide) (List.mem_of_head? hc)
    exact absurd hdigit (by decide)
  have hneg : ∀ k : Nat, (Int.negSucc k).repr ++ "]" = "-" ++ ((k + 1).repr ++ "]") := fun k =>
    String.append_assoc ..
  cases m with
  | ofNat m =>
    cases n with
    | ofNat n => exact apart_numbers fun heq => h (congrArg Int.ofNat heq)
    | negSucc n =>
      rw [hneg]
      exact hsign m (n + 1)
  | negSucc m =>
    rw [hneg]
    cases n with
    | ofNat n =>
      intro text hm hn
      exact hsign n (m + 1) text hn hm
    | negSucc n =>
      rw [hneg]
      exact (apart_numbers fun heq => h (congrArg Int.negSucc (Nat.succ.inj heq))).behind "-"

/-- Different types stand at different places. -/
theorem typePath_inj {path : String} {m n : Int} (h : typePath path m = typePath path n) : m = n := by
  by_contra hne
  have hpath : ∀ k : Int, typePath path k = (path ++ "[") ++ (k.repr ++ "]") := by
    intro k
    show path ++ ("[" ++ k.repr ++ "]") = _
    simp only [String.append_assoc]
  have hapart := (apart_integers hne).behind (path ++ "[")
  rw [← hpath, ← hpath] at hapart
  exact hapart _ (leads_refl _) (leads_of_eq h.symm)

/-! ## Violations of bounds -/

/-- The text of a bound begins with a bracket. -/
theorem Occurrences.head?_text (o : Occurrences) : o.text.toList.head? = some '[' := by
  show ("[" ++ toString o.min ++ ", " ++ toString o.max ++ "]").toList.head? = _
  rw [String.append_assoc, String.append_assoc, String.append_assoc, String.toList_append]
  rfl

namespace StrictError

/-- What a violation **expected**, if it says so. -/
def expected? (e : StrictError) : Option String := e.cause.expectation?.map Prod.fst

@[simp] theorem expected?_of (place : String) (c : Cause) :
    (of place c).expected? = c.expectation?.map Prod.fst := by
  rw [expected?, of, within]
  split <;> rfl

/-- A violation that expects no bound. -/
def ExpectsNoBound (e : StrictError) : Prop := ∀ o : Occurrences, e.expected? ≠ some o.text

/-- A violation that expects nothing, or a text that does not begin with a bracket, expects no bound. -/
theorem expectsNoBound_of {place : String} {c : Cause}
    (h : ∀ x ∈ c.expectation?, x.1.toList.head? ≠ some '[') : (of place c).ExpectsNoBound := by
  intro o hexpected
  rw [expected?_of, Option.map_eq_some_iff] at hexpected
  obtain ⟨x, hx, htext⟩ := hexpected
  exact h x hx (htext ▸ o.head?_text)

end StrictError

open StrictError

/-- The violation of a state value expects no bound. -/
theorem expectsNoBound_valueViolations {types : TypeSystem} {sid : SemId} {v : Value} {path : String} :
    FindsWithin ExpectsNoBound (valueViolations types sid v path) := by
  have hmismatch : ∀ got what, ∀ x ∈ (Cause.stateMismatch sid.text got what).expectation?,
      x.1.toList.head? ≠ some '[' := by
    rintro got what x ⟨⟩
    show ("value of type " ++ sid.text).toList.head? ≠ _
    rw [String.toList_append]
    exact nofun
  unfold valueViolations
  split
  · exact findsWithin_ok (List.forall_mem_singleton.2 (expectsNoBound_of nofun))
  · split
    · exact findsWithin_ok (List.forall_mem_nil _)
    · exact findsWithin_ok (List.forall_mem_singleton.2 (expectsNoBound_of (hmismatch _ _)))
    · exact nofun

namespace Operation

variable {o : Operation} {c : Context}

/-- An entry that is not allowed expects no bound. -/
theorem expectsNoBound_notAllowed {path what : String} {type : Int} :
    FindsWithin ExpectsNoBound (.ok [.of path (.notAllowed what type)]) :=
  findsWithin_ok (List.forall_mem_singleton.2 (expectsNoBound_of nofun))

theorem expectsNoBound_globalViolations {d : GlobalDetails} {path : String} {items : List Value} :
    FindsWithin ExpectsNoBound (globalViolations c d path items) := by
  refine .bind fun values hvalues => findsWithin_ok (List.forall_mem_append.2
    ⟨?_, forall_mem_flatten_mapM (fun _ _ => expectsNoBound_valueViolations) hvalues⟩)
  split
  · refine List.forall_mem_singleton.2 (expectsNoBound_of ?_)
    rintro x ⟨⟩
    show ("at most " ++ toString d.maxItems ++ " items").toList.head? ≠ _
    rw [String.append_assoc, String.toList_append]
    exact nofun
  · exact List.forall_mem_nil _

theorem expectsNoBound_assignmentViolations {state : StateSchema} {path : String} {a : Assignment} :
    FindsWithin ExpectsNoBound (o.assignmentViolations c state path a) := by
  have hrelative : ∀ b : Bool, ∀ e ∈ (if b then [StrictError.of (path ++ ".seal") .witnessRelativeSeal]
      else []), e.ExpectsNoBound := by
    rintro (_ | _)
    · exact List.forall_mem_nil _
    · exact List.forall_mem_singleton.2 (expectsNoBound_of (by rintro x ⟨⟩; decide))
  unfold assignmentViolations
  cases state with
  | structured sid =>
    refine .bind fun value hvalue => findsWithin_ok (List.forall_mem_append.2
      ⟨?_, expectsNoBound_valueViolations value hvalue⟩)
    split
    · exact hrelative _
    · exact List.forall_mem_nil _
  | _ =>
    refine findsWithin_ok (List.forall_mem_append.2 ⟨?_, List.forall_mem_nil _⟩)
    split
    · exact hrelative _
    · exact List.forall_mem_nil _

theorem expectsNoBound_typeViolations {state : StateSchema} {path : String} {a : Assignments} :
    FindsWithin ExpectsNoBound (o.typeViolations c state path a) := by
  have hkind : ∀ kind : StateKind, kind.name.toList.head? ≠ some '[' := by
    intro kind
    cases kind <;> decide
  rw [typeViolations]
  split
  · refine findsWithin_ok (List.forall_mem_singleton.2 (expectsNoBound_of ?_))
    rintro x ⟨⟩
    exact hkind _
  · exact .bind fun found hfound => findsWithin_ok
      (forall_mem_flatten_mapM (fun _ _ => expectsNoBound_assignmentViolations) hfound)

end Operation

/-! ## Listed fields -/

/-- A **listed field**: its place, its bound, and how often an operation carries it. -/
structure ListedField where
  place : String
  bound : Occurrences
  count : Nat

namespace ListedField

/-- What is found of a listed field. -/
def violations (f : ListedField) : List StrictError := countViolations f.place f.bound f.count

/-- The fields of a table of bounds, counted by their types. -/
def ofBounds (path : String) (bounds : Table Int Occurrences) (count : Int → Nat) : List ListedField :=
  (bounds.sorted intLe).map fun x => ⟨typePath path x.1, x.2, count x.1⟩

@[simp] theorem ofBounds_empty (path : String) (count : Int → Nat) :
    ofBounds path .empty count = [] := by
  rw [ofBounds, Table.sorted_empty, List.map_nil]

/-- The fields of a table have different places. -/
theorem nodup_places_ofBounds (path : String) (bounds : Table Int Occurrences) (count : Int → Nat) :
    ((ofBounds path bounds count).map place).Nodup := by
  have htypes : ((bounds.sorted intLe).map Prod.fst).Nodup :=
    ((List.mergeSort_perm ..).map Prod.fst).nodup_iff.2 bounds.nodup
  have hplaces : (ofBounds path bounds count).map place =
      ((bounds.sorted intLe).map Prod.fst).map (typePath path) := by
    rw [ofBounds, List.map_map, List.map_map]
    rfl
  rw [hplaces]
  exact htypes.map fun _ _ => typePath_inj

/-- The places of a table lie inside of its path. -/
theorem leads_of_mem_ofBounds {path : String} {bounds : Table Int Occurrences} {count : Int → Nat}
    {place : String} (h : place ∈ (ofBounds path bounds count).map ListedField.place) :
    Leads path place := by
  obtain ⟨f, hf, rfl⟩ := List.mem_map.1 h
  obtain ⟨x, -, rfl⟩ := List.mem_map.1 hf
  exact leads_append ..

/-- What is found of the fields of a table. -/
theorem flatMap_violations_ofBounds (path : String) (bounds : Table Int Occurrences)
    (count : Int → Nat) : (ofBounds path bounds count).flatMap violations =
      (bounds.sorted intLe).flatMap fun x => countViolations (typePath path x.1) x.2 (count x.1) :=
  List.flatMap_map ..

/-- Whether an error stands at the place of a field and expects its bound. -/
def blames (f : ListedField) (e : StrictError) : Bool :=
  decide (e.field = f.place ∧ e.expected? = some f.bound.text)

/-- Among the violations of fields at different places, those of one field are the ones that blame it. -/
theorem filter_blames {fields : List ListedField} (hnodup : (fields.map place).Nodup)
    {f : ListedField} (hf : f ∈ fields) :
    (fields.flatMap violations).filter f.blames = f.violations := by
  have hown : f.violations.filter f.blames = f.violations := by
    refine List.filter_eq_self.2 fun e he => decide_eq_true ?_
    unfold violations countViolations at he
    split at he
    · cases he
    · rw [List.mem_singleton.1 he, field_of, expected?_of]
      exact ⟨rfl, rfl⟩
  have hother : ∀ g : ListedField, g.place ≠ f.place → g.violations.filter f.blames = [] := by
    intro g hplace
    refine List.filter_eq_nil_iff.2 fun e he hblames => ?_
    unfold violations countViolations at he
    split at he
    · cases he
    · rw [List.mem_singleton.1 he] at hblames
      exact hplace ((field_of ..).symm.trans (of_decide_eq_true hblames).1)
  -- fields in front of it and behind it stand elsewhere
  obtain ⟨before, after, rfl⟩ := List.append_of_mem hf
  rw [List.map_append, List.map_cons, List.nodup_append, List.nodup_cons] at hnodup
  obtain ⟨-, ⟨hafter, -⟩, hbefore⟩ := hnodup
  have hrest : ∀ gs : List ListedField, (∀ g ∈ gs, g.place ≠ f.place) →
      (gs.flatMap violations).filter f.blames = [] := by
    intro gs hgs
    rw [List.filter_flatMap]
    exact List.flatMap_eq_nil_iff.2 fun g hg => hother g (hgs g hg)
  rw [List.flatMap_append, List.flatMap_cons, List.filter_append, List.filter_append, hown,
    hrest before fun g hg => hbefore _ (List.mem_map_of_mem hg) _ (List.mem_cons_self ..),
    hrest after fun g hg heq => hafter (heq ▸ List.mem_map_of_mem hg), List.append_nil,
    List.nil_append]

end ListedField

namespace Operation

variable {o : Operation} {c : Context}

/-- How many metadata of a type an operation carries, which is one at most. -/
def metadataCount (o : Operation) (type : Int) : Nat := if o.state.metadata.contains type then 1 else 0

/-- How many items of a global type an operation sets. -/
def globalCount (o : Operation) (type : Int) : Nat := ((o.state.globals.get? type).getD []).length

/-- How many assignments of a type an operation makes. -/
def assignmentCount (o : Operation) (type : Int) : Nat :=
  ((o.state.assignments.get? type).map fun a => a.items.length).getD 0

/-- The parts of an operation of which a shape lists the fields: where they stand, their bounds, and how
often the operation carries a type there. A shape without inputs lists none of them. -/
def listedParts (o : Operation) (shape : OperationSchema) :
    List (String × Table Int Occurrences × (Int → Nat)) :=
  [(".metadata", shape.metadata, o.metadataCount), (".globals", shape.globals, o.globalCount),
   (".inputs", shape.inputs.getD .empty, o.inputCount),
   (".assignments", shape.assignments, o.assignmentCount)]

/-- The fields that a shape **lists** for an operation. -/
def listedFields (o : Operation) (shape : OperationSchema) (path : String) : List ListedField :=
  (o.listedParts shape).flatMap fun part =>
    ListedField.ofBounds (path ++ part.1) part.2.1 part.2.2

/-- No two listed fields have one place. -/
theorem nodup_places_listedFields (o : Operation) (shape : OperationSchema) (path : String) :
    ((o.listedFields shape path).map ListedField.place).Nodup := by
  -- the names of the parts begin with four different letters
  have hparts : (o.listedParts shape).Pairwise fun x y => Apart x.1 y.1 := by
    have hnames : ["metadata", "globals", "inputs", "assignments"].Pairwise fun s t =>
        ∃ a b, s.toList.head? = some a ∧ t.toList.head? = some b ∧ a ≠ b := by
      simp
    have happart : [".metadata", ".globals", ".inputs", ".assignments"].Pairwise Apart := by
      refine (List.pairwise_map (f := ("." ++ ·))).2 (hnames.imp ?_)
      rintro s t ⟨a, b, hs, ht, hne⟩
      exact (apart_of_heads hs ht hne).behind "."
    exact List.pairwise_map.1 happart
  rw [listedFields, List.map_flatMap, List.nodup_flatMap]
  refine ⟨fun part _ => ListedField.nodup_places_ofBounds .., hparts.imp fun hxy p hp hq => ?_⟩
  exact hxy.behind path p (ListedField.leads_of_mem_ofBounds hp) (ListedField.leads_of_mem_ofBounds hq)

/-! ## Reports -/

section

variable {p : StrictError → Bool} (hp : ∀ e, e.ExpectsNoBound → p e = false)
include hp

/-- Of what is found in a part, only what is said of the counts can expect a bound. -/
theorem filter_part {α : Type} {f : α → Except Failure (List StrictError)} {xs : List α}
    {path : String} {bounds : Table Int Occurrences} {count : Int → Nat} {found : List StrictError}
    (hf : ∀ x ∈ xs, FindsWithin ExpectsNoBound (f x))
    (h : (do return (← xs.mapM f).flatten ++ (bounds.sorted intLe).flatMap fun x : Int × Occurrences =>
      countViolations (typePath path x.1) x.2 (count x.1)) = .ok found) :
    found.filter p =
      ((ListedField.ofBounds path bounds count).flatMap ListedField.violations).filter p := by
  obtain ⟨values, hvalues, h⟩ := bind_eq_ok.1 h
  obtain rfl := pure_eq_ok.1 h
  rw [ListedField.flatMap_violations_ofBounds, List.filter_append, List.filter_eq_nil_iff.2,
    List.nil_append]
  intro e he
  rw [hp e (forall_mem_flatten_mapM hf hvalues e he)]
  exact Bool.false_ne_true

theorem filter_metadataViolations {found : List StrictError} (h : o.metadataViolations c = .ok found) :
    found.filter p = ((ListedField.ofBounds (c.path ++ ".metadata") c.shape.metadata
      o.metadataCount).flatMap ListedField.violations).filter p := by
  refine filter_part hp (fun x _ => ?_) h
  dsimp only
  split
  · exact expectsNoBound_valueViolations
  · exact expectsNoBound_notAllowed

theorem filter_globalsViolations {found : List StrictError} (h : o.globalsViolations c = .ok found) :
    found.filter p = ((ListedField.ofBounds (c.path ++ ".globals") c.shape.globals
      o.globalCount).flatMap ListedField.violations).filter p := by
  refine filter_part hp (fun x _ => ?_) h
  dsimp only
  split
  · exact expectsNoBound_globalViolations
  · exact expectsNoBound_notAllowed

theorem filter_assignmentsViolations {found : List StrictError}
    (h : o.assignmentsViolations c = .ok found) :
    found.filter p = ((ListedField.ofBounds (c.path ++ ".assignments") c.shape.assignments
      o.assignmentCount).flatMap ListedField.violations).filter p := by
  refine filter_part hp (fun x _ => ?_) h
  dsimp only
  split
  · exact expectsNoBound_typeViolations
  · exact expectsNoBound_notAllowed

theorem filter_inputsViolations {bounds : Table Int Occurrences} :
    (o.inputsViolations c bounds).filter p = ((ListedField.ofBounds (c.path ++ ".inputs") bounds
      o.inputCount).flatMap ListedField.violations).filter p := by
  rw [ListedField.flatMap_violations_ofBounds, inputsViolations, List.filter_append,
    List.filter_eq_nil_iff.2, List.nil_append]
  intro e he
  obtain ⟨type, -, he⟩ := List.mem_flatMap.1 he
  split at he
  · cases he
  · rw [hp e (expectsNoBound_notAllowed _ rfl e he)]
    exact Bool.false_ne_true

/-- Of what is found in an operation, only what is said of its listed fields can expect a bound. -/
theorem filter_fieldViolations {found : List StrictError} (h : o.fieldViolations c = .ok found) :
    found.filter p = ((o.listedFields c.shape c.path).flatMap ListedField.violations).filter p := by
  obtain ⟨metadata, hmetadata, h⟩ := bind_eq_ok.1 h
  obtain ⟨globals, hglobals, h⟩ := bind_eq_ok.1 h
  obtain ⟨assignments, hassignments, h⟩ := bind_eq_ok.1 h
  obtain rfl := pure_eq_ok.1 h
  rw [listedFields, listedParts]
  simp only [List.flatMap_cons, List.flatMap_nil, List.append_nil, List.flatMap_append,
    List.filter_append, List.append_assoc]
  rw [filter_metadataViolations hp hmetadata, filter_globalsViolations hp hglobals,
    filter_assignmentsViolations hp hassignments]
  cases c.shape.inputs with
  | none =>
    rw [Option.getD_none, ListedField.ofBounds_empty]
    rfl
  | some bounds =>
    rw [filter_inputsViolations hp]
    rfl

end

/-- The shape that a schema has for an operation: that of a genesis, or of the type of a transition if it
is declared. -/
def shape? (o : Operation) (s : Schema) : Except Failure (Option OperationSchema) :=
  match o with
  | genesis _ => .ok (some s.genesis)
  | transition t => s.transitionShape? t.type

/-- An operation with a shape is checked against it. -/
theorem findings_of_shape {s : Schema} {types : TypeSystem} {path : String} {shape : OperationSchema}
    (h : o.shape? s = .ok (some shape)) :
    o.findings s types path = o.fieldViolations ⟨s, types, shape, path⟩ := by
  cases o with
  | genesis g =>
    cases h
    rfl
  | transition t =>
    rw [shape?] at h
    rw [findings, h]
    rfl

/-- In a regular schema, the shapes of transitions have inputs, and no others. -/
theorem isSome_inputs_of_shape {s : Schema} (hs : s.Regular) {shape : OperationSchema}
    (h : o.shape? s = .ok (some shape)) : shape.inputs.isSome = !o.isGenesis := by
  cases o with
  | genesis g =>
    cases h
    rw [hs.genesis]
    rfl
  | transition t =>
    rw [shape?, Schema.transitionShape?] at h
    split at h
    · obtain ⟨d, hd, rfl⟩ := Option.map_eq_some_iff.1 (Except.ok.inj h)
      obtain ⟨n, -, hn⟩ := Option.bind_eq_some_iff.1 hd
      exact hs.transitions _ (Table.mem_entries.2 hn)
    · cases h

/-- The fields of an operation are **typed**: the type of a transition is a number, and metadata, global
state and structured state are made of byte strings. -/
structure Typed (o : Operation) : Prop where
  type : ∀ t, o = .transition t → ∃ n, t.type = .int n
  metadata : ∀ e ∈ o.state.metadata.entries, ∃ octets, e.2 = .bytes octets
  globals : ∀ e ∈ o.state.globals.entries, ∀ v ∈ e.2, ∃ octets, v = .bytes octets
  structured : ∀ e ∈ o.state.assignments.entries, e.2.kind = .structured →
    ∀ a ∈ e.2.items, ∃ octets, a.state = .bytes octets

/-- An operation with typed fields is checkable. -/
theorem Typed.checkable (h : o.Typed) (s : Schema) (types : TypeSystem) : o.Checkable s types := by
  have hbytes : ∀ {v : Value}, (∃ octets, v = .bytes octets) → v.Packable := by
    rintro v ⟨octets, rfl⟩
    exact Value.packable_of_octets rfl
  have hpackable : ∀ shape, o.PayloadsPackable s types shape := fun shape =>
    { metadata := fun e he _ _ _ _ => hbytes (h.metadata e he)
      globals := fun e he _ _ _ _ v hv => hbytes (h.globals e he v hv)
      assignments := fun e he _ _ _ _ _ hkind _ a ha => hbytes (h.structured e he hkind a ha) }
  cases o with
  | genesis g => exact hpackable s.genesis
  | transition t =>
    obtain ⟨n, hn⟩ := h.type t rfl
    refine ⟨?_, fun shape _ => hpackable shape⟩
    rw [hn]
    rfl

/-- **What the check of an operation reports.** It reports nothing exactly if the operation conforms to
the schema. It gives a report for every operation with typed fields. And for every field that the shape
of the operation lists, whether the operation carries it or not, the report has one violation that
expects the bound of the field at its place if the number of occurrences is out of the bound, and none
otherwise. -/
theorem validate_reports {s : Schema} (hs : s.Regular) (types : TypeSystem) (o : Operation)
    (path : String) :
    ((o.validate s types path).Passes ↔ o.ConformsTo s types) ∧
    (types.WellFormed → o.Typed → ∃ report, (o.validate s types path).Yields (.ok report)) ∧
    ∀ shape, o.shape? s = .ok (some shape) → shape.inputs.isSome = !o.isGenesis ∧
      ∀ report, (o.validate s types path).Yields (.ok report) → ∀ f ∈ o.listedFields shape path,
        report.violations.filter f.blames =
          if f.bound.admits f.count then [] else [.of f.place (.occurrences f.count f.bound.text)] := by
  refine ⟨passes_validate_iff, fun htypes htyped => ?_, fun shape hshape => ?_⟩
  · obtain ⟨found, hfound⟩ : ∃ found, o.findings s types path = .ok found :=
      (exists_findings_iff htypes).2 (htyped.checkable s types)
    have hyields := o.validate_yields s types path
    rw [hfound] at hyields
    exact ⟨⟨found⟩, hyields⟩
  · refine ⟨isSome_inputs_of_shape hs hshape, fun report hreport f hf => ?_⟩
    obtain ⟨found, hfound, rfl⟩ := map_eq_ok.1 ((o.validate_yields s types path).unique hreport)
    rw [findings_of_shape hshape] at hfound
    -- whatever expects no bound does not blame the field
    have hothers : ∀ e : StrictError, e.ExpectsNoBound → f.blames e = false := fun e he =>
      decide_eq_false fun h => he f.bound h.2
    rw [filter_fieldViolations hothers hfound]
    exact ListedField.filter_blames (o.nodup_places_listedFields shape path) hf

/-- A schema of which the genesis wants metadata. -/
def wantingSchema : Schema :=
  { Consignment.smallestSchema with
    genesis := ⟨⟨[(0, .once)], by decide⟩, .empty, none, .empty, none⟩ }

/-- The genesis that sets nothing is reported for the metadata that the schema wants. -/
theorem validate_reports_wanting : ∃ report : Report,
    ((genesis (Consignment.smallestGenesis (Consignment.zeroId .schema))).validate wantingSchema .empty
      "genesis").Yields (.ok report) ∧
    report.violations.filter (ListedField.mk "genesis.metadata[0]" .once 0).blames =
      [.of "genesis.metadata[0]" (.occurrences 0 "[1, 1]")] := by
  have hregular : wantingSchema.Regular := ⟨rfl, List.forall_mem_nil _⟩
  obtain ⟨-, hreport, hlisted⟩ := validate_reports hregular .empty
    (genesis (Consignment.smallestGenesis (Consignment.zeroId .schema))) "genesis"
  obtain ⟨report, hreport⟩ := hreport TypeSystem.wellFormed_empty
    ⟨nofun, List.forall_mem_nil _, List.forall_mem_nil _, List.forall_mem_nil _⟩
  refine ⟨report, hreport, (hlisted wantingSchema.genesis rfl).2 report hreport _ ?_⟩
  exact List.mem_flatMap.2 ⟨_, List.mem_cons_self .., List.mem_map.2
    ⟨(0, .once), Table.mem_sorted.2 (List.mem_singleton_self _), rfl⟩⟩

end Operation

end StrictContract
