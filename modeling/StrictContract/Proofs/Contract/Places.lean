import StrictContract.Proofs.Codec.Blame
import StrictContract.Proofs.Contract.Recomputing

/-! # Places — where a report has its violations, and which of them are mismatches

The field of a violation is a text, and a violation is **at** a place if its field is the place or lies
inside of it, that is, if its field begins with the place. Two places are **apart** if no text begins
with both, and then no violation is at both. Every part of a check reports at places of its own. Only
transitions under foreign ids are reported as mismatches of identifiers, and only faults of the input
map and unmapped inputs are reported at the input map of a bundle. -/

namespace StrictContract

open Codec

/-! ## Texts -/

/-- A text **leads** to the texts that begin with it. -/
def Leads (p q : String) : Prop := ∃ rest, q = p ++ rest

theorem leads_refl (p : String) : Leads p p := ⟨"", String.append_empty.symm⟩

theorem leads_append (p rest : String) : Leads p (p ++ rest) := ⟨rest, rfl⟩

theorem leads_of_eq {p q : String} (h : p = q) : Leads p q := h ▸ leads_refl p

theorem Leads.trans {p q r : String} (h : Leads p q) (h' : Leads q r) : Leads p r := by
  obtain ⟨s, rfl⟩ := h
  obtain ⟨t, rfl⟩ := h'
  exact ⟨s ++ t, String.append_assoc ..⟩

theorem Leads.append {p q : String} (h : Leads p q) (rest : String) : Leads p (q ++ rest) :=
  h.trans (leads_append q rest)

/-- Two texts are **apart** when no text begins with both. -/
def Apart (p q : String) : Prop := ∀ text, Leads p text → ¬ Leads q text

/-- Longer texts stay apart. -/
theorem Apart.mono {p q p' q' : String} (h : Apart p q) (hp : Leads p p') (hq : Leads q q') :
    Apart p' q' :=
  fun text hp' hq' => h text (hp.trans hp') (hq.trans hq')

/-- Texts that begin with different characters are apart. -/
theorem apart_of_heads {p q : String} {a b : Char} (hp : p.toList.head? = some a)
    (hq : q.toList.head? = some b) (hne : a ≠ b) : Apart p q := by
  rintro text ⟨s, rfl⟩ ⟨t, ht⟩
  obtain ⟨ps, hps⟩ := List.head?_eq_some_iff.1 hp
  obtain ⟨qs, hqs⟩ := List.head?_eq_some_iff.1 hq
  have hlists := congrArg String.toList ht
  rw [String.toList_append, String.toList_append, hps, hqs] at hlists
  exact hne (List.cons.inj hlists).1

/-- What stands behind the same text decides whether texts are apart. -/
theorem Apart.behind {p q : String} (h : Apart p q) (before : String) :
    Apart (before ++ p) (before ++ q) := by
  rintro text ⟨s, rfl⟩ ⟨t, ht⟩
  rw [String.append_assoc, String.append_assoc] at ht
  exact h (p ++ s) ⟨s, rfl⟩ ⟨t, (String.append_right_inj before).1 ht⟩

/-- Numbers that are closed by the same character are apart unless they are the same. -/
theorem apart_numbers {m n : Nat} (h : m ≠ n) : Apart (m.repr ++ "]") (n.repr ++ "]") := by
  have hdigits : ∀ (k : Nat) (rest : List Char),
      (Nat.toDigits 10 k ++ ']' :: rest).takeWhile Char.isDigit = Nat.toDigits 10 k := by
    intro k rest
    rw [List.takeWhile_append_of_pos fun c hc => Nat.isDigit_of_mem_toDigits (by decide) (by decide) hc,
      List.takeWhile_cons_of_neg (by decide), List.append_nil]
  -- a text that begins with both would have two longest beginnings of digits
  rintro text ⟨s, rfl⟩ ⟨t, ht⟩
  have hlists := congrArg (fun text => text.toList.takeWhile Char.isDigit) ht
  simp only [String.toList_append, Nat.toList_repr, List.append_assoc] at hlists
  rw [show "]".toList = [']'] from rfl, List.singleton_append, List.singleton_append, hdigits, hdigits]
    at hlists
  refine h ?_
  rw [← @Nat.ofDigitChars_ten_toDigits m, hlists, Nat.ofDigitChars_ten_toDigits]

/-! ## Errors at places -/

namespace StrictError

/-- An error is **at** a place when its field begins with the place. -/
def At (place : String) (e : StrictError) : Prop := Leads place e.field

theorem At.mono {p q : String} {e : StrictError} (h : e.At q) (hpq : Leads p q) : e.At p := hpq.trans h

/-- No error is at places that are apart. -/
theorem At.not_of_apart {p q : String} {e : StrictError} (h : e.At p) (hpq : Apart p q) : ¬ e.At q :=
  hpq e.field h

/-- An error that is made at a place has this place as its field. -/
@[simp] theorem field_of (place : String) (c : Cause) : (of place c).field = place := by
  rw [of, within]
  split
  · rename_i hempty
    rw [String.isEmpty_iff.1 hempty]
    rfl
  · simp [field]

theorem at_of (place : String) (c : Cause) : (of place c).At place := by
  rw [At, field_of]
  exact leads_refl place

/-- Within a segment, an error is at the segment. -/
theorem at_within (segment : String) (e : StrictError) : (e.within segment).At segment := by
  rw [At, within]
  split
  · rename_i hempty
    rw [String.isEmpty_iff.1 hempty]
    exact ⟨_, String.empty_append.symm⟩
  · exact leads_append ..

/-- An error is at the place that the first segments of its path name. -/
theorem at_of_path {e : StrictError} {first : String} {segments rest : List String}
    (h : e.path = first :: segments ++ rest) :
    e.At (first ++ String.join (segments.map joined)) := by
  refine ⟨String.join (rest.map joined), ?_⟩
  rw [field, h]
  show first ++ String.join ((segments ++ rest).map joined) = _
  rw [List.map_append, String.join_append, String.append_assoc]

/-- An error **concerns** a place when it is there and is no mismatch of identifiers. -/
structure Concerns (place : String) (e : StrictError) : Prop where
  isAt : e.At place
  kind : e.kind ≠ .identifierMismatch

theorem Concerns.mono {p q : String} {e : StrictError} (h : e.Concerns q) (hpq : Leads p q) :
    e.Concerns p :=
  ⟨h.isAt.mono hpq, h.kind⟩

/-- An error that is made inside of a place concerns the place. -/
theorem concerns_of {place inner : String} {c : Cause} (h : Leads place inner)
    (hc : c.kind ≠ .identifierMismatch) : (of inner c).Concerns place where
  isAt := (at_of inner c).mono h
  kind := by
    rwa [of, kind_within]

end StrictError

/-! ## Findings -/

section

variable {α : Type} {P : StrictError → Prop}

/-- A search **finds within** a property when everything that it finds has it. -/
def FindsWithin (P : StrictError → Prop) (x : Except Failure (List StrictError)) : Prop :=
  ∀ found, x = .ok found → ∀ e ∈ found, P e

theorem findsWithin_ok {found : List StrictError} (h : ∀ e ∈ found, P e) :
    FindsWithin P (.ok found) := by
  rintro _ ⟨⟩
  exact h

theorem FindsWithin.bind {x : Except Failure α} {f : α → Except Failure (List StrictError)}
    (h : ∀ a, x = .ok a → FindsWithin P (f a)) : FindsWithin P (x >>= f) := by
  intro found hfound
  obtain ⟨a, ha, hf⟩ := bind_eq_ok.1 hfound
  exact h a ha found hf

/-- Searches in a row find within a property when each of them does. -/
theorem forall_mem_flatten_mapM {f : α → Except Failure (List StrictError)} {xs : List α}
    (h : ∀ a ∈ xs, FindsWithin P (f a)) {found : List (List StrictError)}
    (hfound : xs.mapM f = .ok found) :
    ∀ e ∈ found.flatten, P e := by
  obtain ⟨ps, rfl, rfl, hps⟩ := mapM_eq_ok.1 hfound
  intro e he
  obtain ⟨_, hmem, he⟩ := List.mem_flatten.1 he
  obtain ⟨p, hp, rfl⟩ := List.mem_map.1 hmem
  exact h p.1 (List.mem_map_of_mem hp) p.2 (hps p hp) e he

/-- What is found in one of the searches is found. -/
theorem mem_flatten_mapM {f : α → Except Failure (List StrictError)} {xs : List α} {a : α} (ha : a ∈ xs)
    {found : List (List StrictError)} (hfound : xs.mapM f = .ok found) :
    ∃ part, f a = .ok part ∧ ∀ e ∈ part, e ∈ found.flatten := by
  obtain ⟨ps, rfl, rfl, hps⟩ := mapM_eq_ok.1 hfound
  obtain ⟨p, hp, rfl⟩ := List.mem_map.1 ha
  exact ⟨p.2, hps p hp, fun e he => List.mem_flatten.2 ⟨p.2, List.mem_map_of_mem hp, he⟩⟩

theorem FindsWithin.imp {Q : StrictError → Prop} {x : Except Failure (List StrictError)}
    (h : FindsWithin P x) (hPQ : ∀ e, P e → Q e) : FindsWithin Q x :=
  fun found hfound e he => hPQ e (h found hfound e he)

end

/-- What a test finds at a place. -/
theorem concerns_unless {place inner : String} {c : Cause} {b : Prop} [Decidable b]
    (h : Leads place inner) (hc : c.kind ≠ .identifierMismatch) :
    ∀ e ∈ if b then [] else [StrictError.of inner c], e.Concerns place := by
  split
  · exact List.forall_mem_nil _
  · exact List.forall_mem_singleton.2 (StrictError.concerns_of h hc)

theorem concerns_when {place inner : String} {c : Cause} {b : Prop} [Decidable b]
    (h : Leads place inner) (hc : c.kind ≠ .identifierMismatch) :
    ∀ e ∈ if b then [StrictError.of inner c] else [], e.Concerns place := by
  split
  · exact List.forall_mem_singleton.2 (StrictError.concerns_of h hc)
  · exact List.forall_mem_nil _

/-! ### Schemas and operations -/

section

variable {place path : String} (h : Leads place path)
include h

theorem leads_typePath (type : Int) : Leads place (typePath path type) := h.append _

theorem concerns_countViolations {o : Occurrences} {count : Nat} :
    ∀ e ∈ countViolations path o count, e.Concerns place :=
  concerns_unless h nofun

theorem concerns_valueViolations {types : TypeSystem} {sid : SemId} {v : Value} :
    FindsWithin (StrictError.Concerns place) (valueViolations types sid v path) := by
  unfold valueViolations
  split
  · exact findsWithin_ok (List.forall_mem_singleton.2 (StrictError.concerns_of h nofun))
  · split
    · exact findsWithin_ok (List.forall_mem_nil _)
    · exact findsWithin_ok (List.forall_mem_singleton.2 (StrictError.concerns_of h nofun))
    · exact nofun

theorem Schema.concerns_boundViolations {what : String} {bounds : Table Int Occurrences}
    {declared : Int → Bool} :
    ∀ e ∈ boundViolations path what bounds declared, e.Concerns place := by
  intro e he
  obtain ⟨x, -, he⟩ := List.mem_flatMap.1 he
  have hplace := leads_typePath h x.1
  exact (List.mem_append.1 he).elim (concerns_unless hplace (by nofun) e)
    (concerns_when hplace (by nofun) e)

theorem Schema.concerns_shapeViolations {s : Schema} {shape : OperationSchema} :
    ∀ e ∈ s.shapeViolations path shape, e.Concerns place := by
  intro e he
  rcases List.mem_append.1 he with he | he
  · rcases List.mem_append.1 he with he | he
    · exact (List.mem_append.1 he).elim (concerns_boundViolations (h.append _) e)
        (concerns_boundViolations (h.append _) e)
    · split at he
      · exact concerns_boundViolations (h.append _) e he
      · cases he
  · exact concerns_boundViolations (h.append _) e he

end

/-- A violation of a schema concerns one of its parts. -/
theorem Schema.exists_concerns {s : Schema} {types : TypeSystem} : ∀ e ∈ s.violations types,
    ∃ part ∈ ["meta_types", "global_types", "owned_types", "genesis", "transitions"],
      e.Concerns part := by
  intro e he
  have htype : ∀ (part : String) (type : Int), Leads part (typePath part type) := fun part =>
    leads_typePath (leads_refl part)
  rcases List.mem_append.1 he with he | he
  · rcases List.mem_append.1 he with he | he
    · rcases List.mem_append.1 he with he | he
      · rcases List.mem_append.1 he with he | he
        · obtain ⟨x, -, he⟩ := List.mem_flatMap.1 he
          exact ⟨"meta_types", by simp, concerns_unless (htype _ _) (by nofun) e he⟩
        · obtain ⟨x, -, he⟩ := List.mem_flatMap.1 he
          exact ⟨"global_types", by simp, concerns_unless (htype _ _) (by nofun) e he⟩
      · obtain ⟨x, -, he⟩ := List.mem_flatMap.1 he
        dsimp only at he
        split at he
        · exact ⟨"owned_types", by simp, concerns_unless (htype _ _) (by nofun) e he⟩
        · cases he
    · exact ⟨"genesis", by simp, concerns_shapeViolations (leads_refl _) e he⟩
  · obtain ⟨x, -, he⟩ := List.mem_flatMap.1 he
    exact ⟨"transitions", by simp, concerns_shapeViolations (htype _ _) e he⟩

namespace Operation

variable {o : Operation} {c : Context} {place path : String}

/-- The numbers of occurrences are found at the places of their bounds. -/
theorem concerns_counts (h : Leads place path) {bounds : List (Int × Occurrences)}
    {f : Int × Occurrences → List StrictError}
    (hf : ∀ x, ∃ count, f x = countViolations (typePath path x.1) x.2 count) :
    ∀ e ∈ bounds.flatMap f, e.Concerns place := by
  intro e he
  obtain ⟨x, -, he⟩ := List.mem_flatMap.1 he
  obtain ⟨count, hcount⟩ := hf x
  rw [hcount] at he
  exact concerns_countViolations (leads_typePath h x.1) e he

/-- An entry that is not allowed is found at its place. -/
theorem concerns_notAllowed (h : Leads place path) {what : String} {type : Int} :
    FindsWithin (StrictError.Concerns place) (.ok [.of (typePath path type) (.notAllowed what type)]) :=
  findsWithin_ok (List.forall_mem_singleton.2 (StrictError.concerns_of (leads_typePath h type) nofun))

section

variable (h : Leads place c.path)
include h

theorem concerns_metadataViolations :
    FindsWithin (StrictError.Concerns place) (o.metadataViolations c) := by
  have hpath := h.append ".metadata"
  refine .bind fun values hvalues => findsWithin_ok (List.forall_mem_append.2
    ⟨forall_mem_flatten_mapM (fun x _ => ?_) hvalues, concerns_counts hpath fun _ => ⟨_, rfl⟩⟩)
  dsimp only
  split
  · exact concerns_valueViolations (leads_typePath hpath _)
  · exact concerns_notAllowed hpath

theorem concerns_globalsViolations :
    FindsWithin (StrictError.Concerns place) (o.globalsViolations c) := by
  have hpath := h.append ".globals"
  refine .bind fun values hvalues => findsWithin_ok (List.forall_mem_append.2
    ⟨forall_mem_flatten_mapM (fun x _ => ?_) hvalues, concerns_counts hpath fun _ => ⟨_, rfl⟩⟩)
  dsimp only
  split
  · have hplace := leads_typePath hpath x.1
    refine .bind fun values hvalues => findsWithin_ok ?_
    exact List.forall_mem_append.2 ⟨concerns_when hplace nofun,
      forall_mem_flatten_mapM (fun _ _ => concerns_valueViolations (hplace.append _)) hvalues⟩
  · exact concerns_notAllowed hpath

omit h in
theorem concerns_assignmentViolations {state : StateSchema} {a : Assignment} (hpath : Leads place path) :
    FindsWithin (StrictError.Concerns place) (o.assignmentViolations c state path a) := by
  unfold assignmentViolations
  cases state with
  | structured sid =>
    refine .bind fun value hvalue => findsWithin_ok (List.forall_mem_append.2
      ⟨?_, concerns_valueViolations (hpath.append _) value hvalue⟩)
    split
    · exact concerns_when (hpath.append _) nofun
    · exact List.forall_mem_nil _
  | _ =>
    refine findsWithin_ok (List.forall_mem_append.2 ⟨?_, List.forall_mem_nil _⟩)
    split
    · exact concerns_when (hpath.append _) nofun
    · exact List.forall_mem_nil _

theorem concerns_assignmentsViolations :
    FindsWithin (StrictError.Concerns place) (o.assignmentsViolations c) := by
  have hpath := h.append ".assignments"
  refine .bind fun values hvalues => findsWithin_ok (List.forall_mem_append.2
    ⟨forall_mem_flatten_mapM (fun x _ => ?_) hvalues, concerns_counts hpath fun _ => ⟨_, rfl⟩⟩)
  dsimp only
  split
  · have hplace := leads_typePath hpath x.1
    unfold typeViolations
    split
    · exact findsWithin_ok (List.forall_mem_singleton.2 (StrictError.concerns_of hplace nofun))
    · refine .bind fun found hfound => findsWithin_ok ?_
      exact forall_mem_flatten_mapM (fun _ _ => concerns_assignmentViolations (hplace.append _)) hfound
  · exact concerns_notAllowed hpath

theorem concerns_inputsViolations {bounds : Table Int Occurrences} :
    ∀ e ∈ o.inputsViolations c bounds, e.Concerns place := by
  have hpath := h.append ".inputs"
  refine List.forall_mem_append.2 ⟨fun e he => ?_, fun e he => ?_⟩
  · obtain ⟨type, -, he⟩ := List.mem_flatMap.1 he
    exact concerns_unless (leads_typePath hpath type) (by nofun) e he
  · obtain ⟨x, -, he⟩ := List.mem_flatMap.1 he
    exact concerns_countViolations (leads_typePath hpath x.1) e he

theorem concerns_fieldViolations :
    FindsWithin (StrictError.Concerns place) (o.fieldViolations c) := by
  refine .bind fun metadata hmetadata => .bind fun globals hglobals =>
    .bind fun assignments hassignments => findsWithin_ok (List.forall_mem_append.2
      ⟨List.forall_mem_append.2 ⟨List.forall_mem_append.2 ⟨?_, ?_⟩, ?_⟩, ?_⟩)
  · exact concerns_metadataViolations h metadata hmetadata
  · exact concerns_globalsViolations h globals hglobals
  · split
    · exact concerns_inputsViolations h
    · exact List.forall_mem_nil _
  · exact concerns_assignmentsViolations h assignments hassignments

end

/-- What is found in an operation concerns its place. -/
theorem concerns_findings {s : Schema} {types : TypeSystem} (h : Leads place path) :
    FindsWithin (StrictError.Concerns place) (o.findings s types path) := by
  cases o with
  | genesis g => exact concerns_fieldViolations h
  | transition t =>
    refine .bind fun shape _ => ?_
    split
    · exact concerns_fieldViolations h
    · exact findsWithin_ok (List.forall_mem_singleton.2 (StrictError.concerns_of (h.append _) nofun))

end Operation

/-! ## Reports -/

/-- A place at a bundle tells the number of the bundle first. -/
theorem bundlePath_append (i : Nat) (rest : String) :
    bundlePath i ++ rest = "bundles[" ++ (i.repr ++ "]" ++ (".bundle" ++ rest)) := by
  have hclosed : "].bundle" = "]" ++ ".bundle" := rfl
  show "bundles[" ++ i.repr ++ "].bundle" ++ rest = _
  simp only [hclosed, String.append_assoc]

theorem leads_bundlePath (i : Nat) : Leads "bundles[" (bundlePath i) :=
  ⟨_, String.append_empty.symm.trans (bundlePath_append i "")⟩

/-- At different positions everything is apart, and at one position what is apart there. -/
theorem apart_positions {i j : Nat} {p q : String} (h : i = j → Apart p q) :
    Apart ("bundles[" ++ (i.repr ++ "]" ++ p)) ("bundles[" ++ (j.repr ++ "]" ++ q)) := by
  refine Apart.behind ?_ _
  by_cases hij : i = j
  · exact hij ▸ (h hij).behind _
  · exact (apart_numbers hij).mono (leads_append ..) (leads_append ..)

/-- Bundles are at places that are apart. -/
theorem apart_bundlePath {i j : Nat} (h : i ≠ j) : Apart (bundlePath i) (bundlePath j) := by
  rw [← @String.append_empty (bundlePath i), ← @String.append_empty (bundlePath j), bundlePath_append,
    bundlePath_append]
  exact apart_positions fun hij => absurd hij h

/-- An error is in one bundle only. -/
theorem StrictError.At.position_eq {e : StrictError} {i j : Nat} (hi : e.At (bundlePath i))
    (hj : e.At (bundlePath j)) : i = j :=
  Decidable.byContradiction fun h => hi.not_of_apart (apart_bundlePath h) hj

/-- What else is in a bundle is apart from all input maps. -/
theorem apart_inputMap {rest : String} (h : Apart rest ".input_map") (i j : Nat) :
    Apart (bundlePath i ++ rest) (bundlePath j ++ ".input_map") := by
  rw [bundlePath_append, bundlePath_append]
  exact apart_positions fun _ => h.behind _

theorem apart_known : Apart ".known_transitions" ".input_map" :=
  (apart_of_heads (p := "known_transitions") (q := "input_map") rfl rfl (by decide)).behind "."

/-- The place of a transition lies in the part of its bundle for known transitions. -/
theorem leads_transitionPath (bundle : String) (id : OpId) :
    Leads (bundle ++ ".known_transitions") (transitionPath bundle id) := by
  have hopened : ".known_transitions[" = ".known_transitions" ++ "[" := rfl
  refine ⟨"[" ++ id.hex ++ "]", ?_⟩
  show bundle ++ ".known_transitions[" ++ id.hex ++ "]" = _
  simp only [hopened, String.append_assoc]

/-- A violation **elsewhere** is no mismatch of identifiers, and at the input map of no bundle. -/
structure StrictError.Elsewhere (e : StrictError) : Prop where
  apart : ∀ i, ¬ e.At (bundlePath i ++ ".input_map")
  kind : e.kind ≠ .identifierMismatch

/-- An error on a path through the list of bundles is at the position that the path names. -/
theorem StrictError.at_of_position {e : StrictError} {i : Nat} {segments rest : List String}
    (h : e.path = "bundles" :: indexSegment i :: segments ++ rest) :
    e.At ("bundles[" ++ (i.repr ++ "]" ++ String.join (segments.map joined))) := by
  have hopened : "bundles[" = "bundles" ++ "[" := rfl
  have hplace : e.At ("bundles" ++ String.join ((indexSegment i :: segments).map joined)) := at_of_path h
  rw [List.map_cons, String.join_cons, joined_indexSegment] at hplace
  refine hplace.mono (leads_of_eq ?_)
  rw [hopened, String.append_assoc]
  show _ = "bundles" ++ ("[" ++ i.repr ++ "]" ++ _)
  simp only [String.append_assoc]

/-- An error on a path into what is apart from the input map of a bundle is elsewhere. -/
theorem StrictError.elsewhere_of_position {e : StrictError} (i : Nat) (segments rest : List String)
    (h : e.path = "bundles" :: indexSegment i :: segments ++ rest)
    (hplace : Apart (String.join (segments.map joined)) (".bundle" ++ ".input_map"))
    (hkind : e.kind ≠ .identifierMismatch) : e.Elsewhere where
  apart j := by
    rw [bundlePath_append]
    exact (at_of_position h).not_of_apart (apart_positions fun _ => hplace)
  kind := hkind

/-- A violation that concerns a place apart from bundles is elsewhere. -/
theorem StrictError.Concerns.elsewhere {e : StrictError} {place : String} (h : e.Concerns place)
    (hplace : Apart place "bundles[") : e.Elsewhere where
  apart i := h.isAt.not_of_apart (hplace.mono (leads_refl place) ((leads_bundlePath i).append _))
  kind := h.kind

/-! ### Faults -/

/-- A genesis without an encoding has its fault at one of its fields. -/
theorem Operation.failsWithin_genesis (g : Genesis) :
    FailsWithin (StrictError.At "genesis") (genesis g).encode := by
  rw [encode, codec, toValue, Genesis.toValue, write_union_record, writeAccepted,
    if_pos (by simp [Genesis.codec, accepts])]
  exact (failsWithin_inside fun e _ => e.at_within _).bind fun _ _ => failsWithin_ok _

/-- The fault of a record is what its encoding fails with, at its place. -/
theorem findsWithin_faultOf {α : Type} (path : String) (x : Except Failure α) :
    FindsWithin (fun e => ∃ e', x = .error (.strict e') ∧ e = e'.within path) (faultOf path x) := by
  unfold faultOf
  split
  · exact findsWithin_ok (List.forall_mem_nil _)
  · exact findsWithin_ok (List.forall_mem_singleton.2 ⟨_, rfl, rfl⟩)
  · exact nofun

/-- A fault is that of a record, at the place of the record. -/
theorem exists_of_mem_faultsOf {rs : List (String × Except Failure Octets)} {found : List StrictError}
    (hfound : faultsOf rs = .ok found) :
    ∀ e ∈ found, ∃ r ∈ rs, ∃ e', r.2 = .error (.strict e') ∧ e = e'.within r.1 := by
  obtain ⟨all, hall, hfound⟩ := bind_eq_ok.1 hfound
  obtain rfl := pure_eq_ok.1 hfound
  exact forall_mem_flatten_mapM
    (fun r hr => (findsWithin_faultOf r.1 r.2).imp fun e he => ⟨r, hr, he⟩) hall

/-- The list of bundles as a whole is at no position. -/
theorem StrictError.elsewhere_of_bundles {cause : Cause} (h : cause.kind ≠ .identifierMismatch) :
    (of "bundles" cause).Elsewhere where
  apart i hat := by
    have hopened : (of "bundles" cause).At "bundles[" := hat.mono ((leads_bundlePath i).append _)
    rw [At, field_of] at hopened
    obtain ⟨rest, hrest⟩ := hopened
    have hlength := congrArg String.length hrest
    have hshort : "bundles".length < "bundles[".length := by decide
    rw [String.length_append] at hlength
    omega
  kind := by
    rwa [of, kind_within]

/-- The bundle at a position fails elsewhere if its input map has an encoding. -/
theorem WitnessBundle.failsWithin_at (w : WitnessBundle) (i : Nat)
    (hinputs : Bundle.inputMapCodec.Written w.bundle.inputMapValue) :
    FailsWithin (fun e => ((e.within (indexSegment i)).within "bundles").Elsewhere)
      (codec.write w.toValue) := by
  have hindex := indexSegment_ne_empty i
  refine failsWithin_record (by decide) ⟨rfl, fun e he => ?_, rfl, ?_, trivial⟩
  · refine StrictError.elsewhere_of_position i ["pub_witness"] e.path ?_ ?_ ?_
    · rw [StrictError.path_within (by decide), StrictError.path_within hindex,
        StrictError.path_within (by decide)]
      rfl
    · rw [List.map_cons, StrictError.joined_of_head (by decide), List.map_nil]
      have hnames : Apart "pub_witness" "bundle.input_map" := apart_of_heads rfl rfl (by decide)
      exact hnames.behind "."
    · simp only [StrictError.kind_within]
      exact neverMismatches_write _ _ e he
  -- of the bundle itself only the known transitions can fail
  refine failsWithin_record (by decide) ⟨rfl, fun e he => ?_, rfl, fun e he => ?_, trivial⟩
  · obtain ⟨p, hp⟩ := hinputs
    cases he.symm.trans hp
  · refine StrictError.elsewhere_of_position i ["bundle", "known_transitions"] e.path ?_ ?_ ?_
    · rw [StrictError.path_within (by decide), StrictError.path_within hindex,
        StrictError.path_within (by decide), StrictError.path_within (by decide)]
      rfl
    · rw [List.map_cons, List.map_cons, StrictError.joined_of_head (by decide),
        StrictError.joined_of_head (by decide), List.map_nil]
      exact apart_known.behind ".bundle"
    · simp only [StrictError.kind_within]
      exact neverMismatches_write _ _ e he

namespace Consignment

variable {c : Consignment}

/-- The records of a consignment are what codecs write. -/
theorem neverMismatches_of_mem_records {r : String × Except Failure Octets} (hr : r ∈ c.records) :
    NeverMismatches r.2 := by
  rcases List.mem_cons.1 hr with rfl | hr
  · exact neverMismatches_write _ _
  rcases List.mem_cons.1 hr with rfl | hr
  · exact neverMismatches_write _ _
  obtain ⟨x, -, hr⟩ := List.mem_flatMap.1 hr
  rcases List.mem_cons.1 hr with rfl | hr
  · exact neverMismatches_write _ _
  · obtain ⟨e, -, rfl⟩ := List.mem_map.1 hr
    exact neverMismatches_write _ _

/-- The fault of a record is elsewhere, or that of an input map. -/
theorem elsewhere_or_inputMap {found : List StrictError} (hfound : faultsOf c.records = .ok found) :
    ∀ e ∈ found, e.Elsewhere ∨ ∃ i w, c.bundles[i]? = some w ∧
      ¬ Bundle.inputMapCodec.Written w.bundle.inputMapValue ∧
        e.Concerns (bundlePath i ++ ".input_map") := by
  intro e he
  obtain ⟨r, hr, e', he', rfl⟩ := exists_of_mem_faultsOf hfound e he
  have hkind : (e'.within r.1).kind ≠ .identifierMismatch := by
    rw [StrictError.kind_within]
    exact neverMismatches_of_mem_records hr e' he'
  have hplace := e'.at_within r.1
  rcases List.mem_cons.1 hr with rfl | hr
  · have hschema : (e'.within "schema").Concerns "schema" := ⟨hplace, hkind⟩
    exact .inl (hschema.elsewhere (apart_of_heads rfl rfl (by decide)))
  rcases List.mem_cons.1 hr with rfl | hr
  · -- the genesis names its own place
    have hgenesis : (e'.within "").Concerns "genesis" :=
      ⟨Operation.failsWithin_genesis c.genesis e' he', hkind⟩
    exact .inl (hgenesis.elsewhere (apart_of_heads rfl rfl (by decide)))
  obtain ⟨⟨w, i⟩, hw, hr⟩ := List.mem_flatMap.1 hr
  rcases List.mem_cons.1 hr with rfl | hr
  · -- the only records at input maps are the input maps
    refine .inr ⟨i, w, List.mem_zipIdx_iff_getElem?.1 hw, ?_, hplace, hkind⟩
    rintro ⟨p, hp⟩
    cases he'.symm.trans hp
  · obtain ⟨x, -, rfl⟩ := List.mem_map.1 hr
    have hknown := leads_transitionPath (bundlePath i) x.1
    exact .inl ⟨fun j => (hplace.mono hknown).not_of_apart (apart_inputMap apart_known i j), hkind⟩

/-- The fault of a consignment of which the input maps have encodings is elsewhere. -/
theorem elsewhere_of_encode
    (hinputs : ∀ w ∈ c.bundles, Bundle.inputMapCodec.Written w.bundle.inputMapValue) :
    FailsWithin StrictError.Elsewhere c.encode := by
  have hfield : ∀ (name : String) (codec : Codec) (v : Value), Apart name "bundles[" →
      FailsWithin (fun e => (e.within name).Elsewhere) (codec.write v) := by
    intro name codec v hname e he
    refine StrictError.Concerns.elsewhere ⟨e.at_within name, ?_⟩ hname
    rw [StrictError.kind_within]
    exact neverMismatches_write codec v e he
  refine failsWithin_record (by decide) ⟨rfl, hfield _ _ _ (apart_of_heads rfl rfl (by decide)), rfl,
    hfield _ _ _ (apart_of_heads rfl rfl (by decide)), rfl,
    hfield _ _ _ (apart_of_heads rfl rfl (by decide)), rfl,
    hfield _ _ _ (apart_of_heads rfl rfl (by decide)), rfl, ?_, rfl,
    hfield _ _ _ (apart_of_heads rfl rfl (by decide)), rfl,
    hfield _ _ _ (apart_of_heads rfl rfl (by decide)), rfl,
    hfield _ _ _ (apart_of_heads rfl rfl (by decide)), trivial⟩
  exact failsWithin_list (StrictError.elsewhere_of_bundles nofun) fun i =>
    List.forall_mem_map.2 fun w hw => w.failsWithin_at i (hinputs w hw)

/-! ### Blame -/

/-- What a check **blames** on the bundles at their input maps, and as mismatches: input maps without an
encoding, transitions under foreign ids, and inputs that the input map does not lead to their
transition. -/
inductive Blames (c : Consignment) : StrictError → Prop
  | unwritten {i : Nat} {w : WitnessBundle} {e : StrictError} (hw : c.bundles[i]? = some w)
      (hinputs : ¬ Bundle.inputMapCodec.Written w.bundle.inputMapValue)
      (he : e.Concerns (bundlePath i ++ ".input_map")) : Blames c e
  | foreign {i : Nat} {w : WitnessBundle} {x : OpId × Transition} {id : OpId}
      (hw : c.bundles[i]? = some w) (hx : x ∈ w.bundle.known.entries) (hid : x.2.opId = .ok id)
      (hne : x.1 ≠ id) :
      Blames c (.of (transitionPath (bundlePath i) x.1) (.carriedOperation x.1.text id.text))
  | unmapped {i : Nat} {w : WitnessBundle} {x : OpId × Transition} {id : OpId} {input : Opout}
      (hw : c.bundles[i]? = some w) (hx : x ∈ w.bundle.known.entries) (hid : x.2.opId = .ok id)
      (hinput : input ∈ x.2.inputs) (hne : w.bundle.inputMap.get? input ≠ some id) :
      Blames c (.of (bundlePath i ++ ".input_map") (.unmappedInput input.text id.text))

/-- The fault of a record or of the consignment is elsewhere, or is blamed on a bundle. -/
theorem elsewhere_or_blames_of_faults {found : List StrictError} (hfound : c.faults = .ok found) :
    ∀ e ∈ found, e.Elsewhere ∨ c.Blames e := by
  obtain ⟨ofRecords, hrecords, hfound⟩ := bind_eq_ok.1 hfound
  obtain ⟨own, hown, hfound⟩ := bind_eq_ok.1 hfound
  obtain rfl := pure_eq_ok.1 hfound
  refine List.forall_mem_append.2 ⟨fun e he => ?_, fun e he => ?_⟩
  · exact (elsewhere_or_inputMap hrecords e he).imp id
      fun ⟨i, w, hw, hinputs, hconcerns⟩ => .unwritten hw hinputs hconcerns
  · -- the consignment is written only when its records are
    refine .inl ?_
    unfold ownFault at hown
    split at hown
    · rename_i hnil
      rw [List.isEmpty_iff.1 hnil, faultsOf_eq_ok_nil] at hrecords
      have hinputs : ∀ w ∈ c.bundles, Bundle.inputMapCodec.Written w.bundle.inputMapValue := by
        intro w hw
        obtain ⟨i, hi⟩ := List.mem_iff_getElem?.1 hw
        exact hrecords _ (List.mem_cons_of_mem _ (List.mem_cons_of_mem _ (List.mem_flatMap.2
          ⟨(w, i), List.mem_zipIdx_iff_getElem?.2 hi, List.mem_cons_self⟩)))
      obtain ⟨_, hwrite, rfl⟩ := findsWithin_faultOf _ _ own hown e he
      exact elsewhere_of_encode hinputs e hwrite
    · cases hown
      cases he

/-- What is found in the genesis and the schema is elsewhere. -/
theorem elsewhere_genesisFindings {ix : ConsignmentIndex} :
    FindsWithin StrictError.Elsewhere (c.genesisFindings ix) := by
  have hgenesis : Apart "genesis" "bundles[" := apart_of_heads rfl rfl (by decide)
  -- places in the schema are named without the schema in front
  have hreference : ∀ e ∈ c.referenceViolations ix, e.Concerns "genesis" := by
    unfold referenceViolations
    split
    · exact concerns_unless ⟨".schema_id", rfl⟩ nofun
    · exact List.forall_mem_nil _
  have hparts : ∀ part ∈ ["meta_types", "global_types", "owned_types", "genesis", "transitions"],
      Apart part "bundles[" := by
    simp only [List.forall_mem_cons]
    exact ⟨apart_of_heads rfl rfl (by decide), apart_of_heads rfl rfl (by decide),
      apart_of_heads rfl rfl (by decide), hgenesis, apart_of_heads rfl rfl (by decide), nofun⟩
  refine .bind fun operation hoperation => findsWithin_ok ?_
  refine List.forall_mem_append.2 ⟨List.forall_mem_append.2 ⟨fun e he => ?_, fun e he => ?_⟩, ?_⟩
  · exact (hreference e he).elsewhere hgenesis
  · obtain ⟨part, hpart, hconcerns⟩ := Schema.exists_concerns e he
    exact hconcerns.elsewhere (hparts part hpart)
  · intro e he
    exact (Operation.concerns_findings (leads_refl _) operation hoperation e he).elsewhere hgenesis

/-- What is found in the terminals and the scripts is elsewhere. -/
theorem elsewhere_terminalViolations {ix : ConsignmentIndex} :
    ∀ e ∈ c.terminalViolations ix, e.Elsewhere := by
  intro e he
  obtain ⟨⟨id, seals⟩, -, he⟩ := List.mem_flatMap.1 he
  have hplace : Leads "terminals[" ("terminals[" ++ id.hex ++ "]") := (leads_append _ _).append _
  refine StrictError.Concerns.elsewhere ?_ (apart_of_heads (p := "terminals[") rfl rfl (by decide))
  dsimp only at he
  split at he
  · obtain rfl := List.mem_singleton.1 he
    exact StrictError.concerns_of hplace nofun
  · obtain ⟨s, -, he⟩ := List.mem_flatMap.1 he
    exact concerns_unless hplace (by nofun) e he

theorem elsewhere_scriptViolations : ∀ e ∈ c.scriptViolations, e.Elsewhere := by
  intro e he
  obtain ⟨⟨path, site⟩, -, he⟩ := List.mem_flatMap.1 he
  refine StrictError.Concerns.elsewhere ?_ (apart_of_heads (p := "schema.") rfl rfl (by decide))
  exact concerns_unless (leads_append _ _) (by nofun) e he

/-- An input of a transition is found where it is spent, or at the input map. -/
theorem mem_inputViolations {ix : ConsignmentIndex} {inputMap : Table Opout OpId} {bundle path : String}
    {opId : Option OpId} {input : Opout} {e : StrictError}
    (he : e ∈ inputViolations ix inputMap bundle path opId input) :
    e.Concerns path ∨ ∃ id, opId = some id ∧ inputMap.get? input ≠ some id ∧
      e = .of (bundle ++ ".input_map") (.unmappedInput input.text id.text) := by
  have hplace : Leads path (path ++ ".inputs") := leads_append _ _
  -- what is spent is looked for first, and whether it is mapped whatever comes of that
  rcases List.mem_append.1 he with he | he
  · refine .inl ?_
    split at he
    · exact List.mem_singleton.1 he ▸ StrictError.concerns_of hplace nofun
    · split at he
      · exact concerns_unless hplace (by nofun) e he
      · exact List.mem_singleton.1 he ▸ StrictError.concerns_of hplace nofun
  · split at he
    · split at he
      · cases he
      · exact .inr ⟨_, rfl, ‹_›, List.mem_singleton.1 he⟩
    · cases he

/-- An input that is mapped to no or another transition is found. -/
theorem mem_inputViolations_of_unmapped {ix : ConsignmentIndex} {inputMap : Table Opout OpId}
    {bundle path : String} {id : OpId} {input : Opout} (h : inputMap.get? input ≠ some id) :
    .of (bundle ++ ".input_map") (.unmappedInput input.text id.text) ∈
      inputViolations ix inputMap bundle path (some id) input := by
  refine List.mem_append_right _ ?_
  dsimp only
  rw [if_neg h]
  exact List.mem_singleton_self _

/-- What is found in a transition of a bundle concerns its place, or is blamed on the bundle. -/
theorem elsewhere_or_blames_of_transition {i : Nat} {w : WitnessBundle} (hw : c.bundles[i]? = some w)
    {x : OpId × Transition} (hx : x ∈ w.bundle.known.entries) {ix : ConsignmentIndex} :
    FindsWithin (fun e => e.Elsewhere ∨ c.Blames e) (c.transitionFindings ix w.bundle.inputMap
      (bundlePath i) ⟨x.1, x.2.opId.toOption, x.2⟩) := by
  have hplace := leads_transitionPath (bundlePath i)
  have helsewhere : ∀ e : StrictError, e.Concerns (bundlePath i ++ ".known_transitions") →
      e.Elsewhere := fun e he =>
    ⟨fun j => he.isAt.not_of_apart (apart_inputMap apart_known i j), he.kind⟩
  refine .bind fun operation hoperation => findsWithin_ok ?_
  refine List.forall_mem_append.2 ⟨List.forall_mem_append.2 ⟨List.forall_mem_append.2
    ⟨fun e he => ?_, fun e he => .inl (helsewhere e ?_)⟩, fun e he => .inl (helsewhere e ?_)⟩,
    fun e he => ?_⟩
  · -- under a foreign id
    unfold carriedViolations at he
    split at he
    · rename_i id hid
      split at he
      · cases he
      · obtain rfl := List.mem_singleton.1 he
        exact .inr (.foreign hw hx (toOption_eq_some.1 hid) ‹_›)
    · cases he
  · unfold contractViolations at he
    split at he
    · exact concerns_unless ((hplace _).append _) (by nofun) e he
    · cases he
  · exact Operation.concerns_findings (hplace _) operation hoperation e he
  · obtain ⟨input, hinput, he⟩ := List.mem_flatMap.1 he
    rcases mem_inputViolations he with he | ⟨id, hid, hne, rfl⟩
    · exact .inl (helsewhere e (he.mono (hplace _)))
    · exact .inr (.unmapped hw hx (toOption_eq_some.1 hid) (List.mem_mergeSort.1 hinput) hne)

/-- The bundles of a consignment are checked with the identifiers that they have. -/
theorem mem_zipIdx_indexed {b : IndexedBundle × Nat} :
    b ∈ c.indexed.bundles.zipIdx ↔ ∃ w, c.bundles[b.2]? = some w ∧ b.1 = w.indexed := by
  rw [List.mem_zipIdx_iff_getElem?]
  show (c.bundles.map WitnessBundle.indexed)[b.2]? = some b.1 ↔ _
  rw [List.getElem?_map, Option.map_eq_some_iff]
  simp only [eq_comm]

/-- A report has the faults of the consignment and what is found in the genesis, the bundles, the
terminals and the scripts. -/
theorem exists_parts {report : Report} (h : c.check.Yields (.ok report)) :
    ∃ faults genesis bundles, c.faults = .ok faults ∧ c.genesisFindings c.indexed = .ok genesis ∧
      (c.indexed.bundles.zipIdx.mapM fun x => c.bundleFindings c.indexed x.1 x.2) = .ok bundles ∧
        report.violations = faults ++ (genesis ++ bundles.flatten ++
          (c.terminalViolations c.indexed ++ c.scriptViolations)) := by
  obtain ⟨found, hfound, rfl⟩ := map_eq_ok.1 (c.check_yields_faults.unique h)
  obtain ⟨faults, hfaults, hfound⟩ := bind_eq_ok.1 hfound
  obtain ⟨others, hothers, hfound⟩ := bind_eq_ok.1 hfound
  obtain ⟨genesis, hgenesis, hothers⟩ := bind_eq_ok.1 hothers
  obtain ⟨bundles, hbundles, hothers⟩ := bind_eq_ok.1 hothers
  obtain rfl := pure_eq_ok.1 hothers
  exact ⟨faults, genesis, bundles, hfaults, hgenesis, hbundles, (pure_eq_ok.1 hfound).symm⟩

/-- Whatever a check reports is elsewhere, or is blamed on a bundle. -/
theorem elsewhere_or_blames {report : Report} (h : c.check.Yields (.ok report)) :
    ∀ e ∈ report.violations, e.Elsewhere ∨ c.Blames e := by
  obtain ⟨faults, genesis, bundles, hfaults, hgenesis, hbundles, hreport⟩ := exists_parts h
  rw [hreport]
  refine List.forall_mem_append.2 ⟨elsewhere_or_blames_of_faults hfaults, List.forall_mem_append.2
    ⟨List.forall_mem_append.2 ⟨fun e he => ?_, forall_mem_flatten_mapM (fun b hb => ?_) hbundles⟩,
      fun e he => .inl ?_⟩⟩
  · exact .inl (elsewhere_genesisFindings genesis hgenesis e he)
  · obtain ⟨b, i⟩ := b
    obtain ⟨w, hw, rfl⟩ := mem_zipIdx_indexed.1 hb
    refine .bind fun found hfound => findsWithin_ok (forall_mem_flatten_mapM (fun t ht => ?_) hfound)
    obtain ⟨x, hx, rfl⟩ := List.mem_map.1 ht
    exact elsewhere_or_blames_of_transition hw (Table.mem_sorted.1 hx)
  · exact (List.mem_append.1 he).elim (elsewhere_terminalViolations e) (elsewhere_scriptViolations e)

/-- An input that the input map does not lead to its transition is reported. -/
theorem mem_violations_of_unmapped {report : Report} (h : c.check.Yields (.ok report)) {i : Nat}
    {w : WitnessBundle} (hw : c.bundles[i]? = some w) {x : OpId × Transition}
    (hx : x ∈ w.bundle.known.entries) {id : OpId} (hid : x.2.opId = .ok id) {input : Opout}
    (hinput : input ∈ x.2.inputs) (hne : w.bundle.inputMap.get? input ≠ some id) :
    .of (bundlePath i ++ ".input_map") (.unmappedInput input.text id.text) ∈ report.violations := by
  obtain ⟨faults, genesis, bundles, -, -, hbundles, hreport⟩ := exists_parts h
  have hb : (w.indexed, i) ∈ c.indexed.bundles.zipIdx := mem_zipIdx_indexed.2 ⟨w, hw, rfl⟩
  obtain ⟨ofBundle, hbundle, hbundles⟩ := mem_flatten_mapM hb hbundles
  obtain ⟨transitions, htransitions, hbundle⟩ := bind_eq_ok.1 hbundle
  have ht : (⟨x.1, x.2.opId.toOption, x.2⟩ : IndexedTransition) ∈ w.indexed.transitions :=
    List.mem_map.2 ⟨x, Table.mem_sorted.2 hx, rfl⟩
  obtain ⟨ofTransition, htransition, htransitions⟩ := mem_flatten_mapM ht htransitions
  obtain ⟨operation, -, htransition⟩ := bind_eq_ok.1 htransition
  have hmem : .of (bundlePath i ++ ".input_map") (.unmappedInput input.text id.text) ∈ ofTransition := by
    rw [← pure_eq_ok.1 htransition]
    refine List.mem_append_right _ (List.mem_flatMap.2 ⟨input, List.mem_mergeSort.2 hinput, ?_⟩)
    rw [hid]
    exact mem_inputViolations_of_unmapped hne
  rw [hreport]
  refine List.mem_append_right _ (List.mem_append_left _ (List.mem_append_right _ (hbundles _ ?_)))
  exact pure_eq_ok.1 hbundle ▸ htransitions _ hmem

end Consignment

end StrictContract
