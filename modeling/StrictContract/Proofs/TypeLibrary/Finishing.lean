import Mathlib.Data.List.Find
import StrictContract.Proofs.TypeLibrary.Cycles
import StrictContract.Proofs.TypeLibrary.Indexing

/-! # Finishing — the order in which the names of a library are compiled

Names are compiled on demand: a declaration first calls for what it refers to, and its own name is
**finished** behind that. So the index of a compiled library has its names in the order of a depth-first
walk, which the declarations alone determine, and the name of an id is the first one in this **finishing
order**. Where declarations only refer back this is the order of the declarations. Where they refer ahead
it is another one: another name for a declared name is never the name of an id. -/

namespace StrictContract

open TypeSystem

/-! ## The finishing order -/

namespace TypeLibrary

/-- The types of declared variants, in the order of their tags. -/
def variantTypes (variants : Value) : List Value :=
  let tagged := (variants.entries?.getD []).map fun e =>
    (e.1, e.2, (Value.entry? e.2 "tag").getD .null)
  match Value.sortOn (fun (_, _, tag) => tag) tagged with
  | .ok sorted => sorted.filterMap fun (_, v, _) => v.entry? "type"
  | .error _ => []

/-- The references of a declaration in the order in which it **calls** for them: a union goes by its
tags. -/
def calls (decl : Value) : List Value :=
  match decl.entry? "union" with
  | some variants =>
    if (decl.entry? "primitive").isSome || (decl.entry? "unicode").isSome ||
      (decl.entry? "enum").isSome then []
    else variantTypes variants
  | none => references decl

/-- The types of the variants are those that the variants are declared with. -/
theorem mem_of_mem_variantTypes {variants v : Value} (h : v ∈ variantTypes variants) :
    v ∈ (variants.entries?.getD []).filterMap fun e => Value.entry? e.2 "type" := by
  unfold variantTypes at h
  dsimp only at h
  split at h
  · rename_i sorted hsorted
    obtain ⟨row, hrow, hv⟩ := List.mem_filterMap.1 h
    obtain ⟨e, he, rfl⟩ := List.mem_map.1 ((Value.mem_sortOn hsorted).1 hrow)
    exact List.mem_filterMap.2 ⟨e, he, hv⟩
  · cases h

/-- A declaration calls for nothing but its references. -/
theorem mem_references_of_mem_calls {decl v : Value} (h : v ∈ calls decl) : v ∈ references decl := by
  unfold calls at h
  split at h
  · rename_i variants hvariants
    split at h
    · cases h
    · rename_i hfirst
      cases decl with
      | map entries =>
        simp only [Bool.or_eq_true, not_or, Bool.not_eq_true] at hfirst
        obtain ⟨⟨hprimitive, hunicode⟩, henum⟩ := hfirst
        have hform : formReferences (.map entries) =
            (variants.entries?.getD []).filterMap fun e => Value.entry? e.2 "type" := by
          simp [formReferences, hprimitive, hunicode, henum, hvariants]
        rw [references, hform]
        exact mem_of_mem_variantTypes h
      | _ => cases hvariants
  · exact h

instance (name : String) : Decidable (IsLocal name) :=
  decidable_of_iff (Codec.builtin? name = none ∧ Text.cutFirst? '.' name = none)
    ⟨fun h => ⟨h.1, h.2⟩, fun h => ⟨h.ordinary, h.plain⟩⟩

/-- **Visits** a reference on a depth-first walk, given the names that are finished: a declared name that
is not among them is finished behind everything that its declaration calls for. -/
def visit (lib : TypeLibrary) : Nat → List String → Value → List String
  | fuel + 1, done, .text name =>
    match Value.lookup? (.text name) lib.declarations with
    | some decl =>
      if IsLocal name ∧ name ∉ done then (calls decl).foldl (lib.visit fuel) done ++ [name] else done
    | none => done
  | _, done, _ => done

/-- The **finishing order** of a library: a walk that starts at each declaration in turn. No name is on
the way twice, so the number of declarations bounds the length of the way. -/
def finishingOrder (lib : TypeLibrary) : List String :=
  (lib.declarations.map Prod.fst).foldl (lib.visit (lib.declarations.length + 1)) []

variable {lib : TypeLibrary} {used : List (String × SymbolicSystem)} {fuel : Nat} {done : List String}

/-- Nothing is added for a reference that is no local name, or one that is finished. -/
theorem visit_of_finished {v : Value}
    (h : ∀ name, v = .text name → IsLocal name → name ∈ done) : lib.visit fuel done v = done := by
  unfold visit
  split
  · split
    · exact if_neg fun ⟨hlocal, hnew⟩ => hnew (h _ rfl hlocal)
    · rfl
  · rfl

/-- A local name is finished behind everything that its declaration calls for. -/
theorem visit_of_new {name : String} {decl : Value} (hlocal : IsLocal name) (hnew : name ∉ done)
    (hdecl : Value.lookup? (.text name) lib.declarations = some decl) :
    lib.visit (fuel + 1) done (.text name) = (calls decl).foldl (lib.visit fuel) done ++ [name] := by
  rw [visit, hdecl]
  exact if_pos ⟨hlocal, hnew⟩

/-- Nothing is added for references that are finished. -/
theorem foldl_visit_of_finished {vs : List Value}
    (h : ∀ name, .text name ∈ vs → IsLocal name → name ∈ done) :
    vs.foldl (lib.visit fuel) done = done := by
  induction vs with
  | nil => rfl
  | cons v vs ih =>
    rw [List.foldl_cons, visit_of_finished fun name hv => h name (hv ▸ List.mem_cons_self ..)]
    exact ih fun name hmem => h name (List.mem_cons_of_mem _ hmem)

/-- The calls of a mapping follow its first known form. -/
theorem calls_of_map {decl : Value} {entries : List (Value × Value)} (hmap : decl = .map entries) :
    calls decl =
      if (decl.entry? "primitive").isSome then []
      else if (decl.entry? "unicode").isSome then []
      else if (decl.entry? "enum").isSome then []
      else match decl.entry? "union" with
        | some variants => variantTypes variants
        | none => formReferences decl := by
  have hreferences : references decl = formReferences decl := by rw [hmap, references]
  unfold calls
  rw [hreferences]
  unfold formReferences
  cases (decl.entry? "primitive").isSome <;> cases (decl.entry? "unicode").isSome <;>
    cases (decl.entry? "enum").isSome <;> cases decl.entry? "union" <;> rfl

end TypeLibrary

/-! ## What a run visits -/

namespace Compiling

variable {α β : Type} {visit : List String → Value → List String} {vs us : List Value}

/-- A computation **visits** references if the names that a run which succeeds leaves behind are those
that visiting the references one after another does. -/
def Visits (visit : List String → Value → List String) (vs : List Value) (m : Compiling α) : Prop :=
  ∀ w a w', m w = (.ok a, w') → w'.names.map Prod.fst = vs.foldl visit (w.names.map Prod.fst)

theorem visits_pure (a : α) : Visits visit [] (pure a) := by
  intro w a' w' hrun
  cases hrun
  rfl

theorem visits_fail (e : Failure) : Visits (α := α) visit vs (given (.error e)) := by
  intro w a w' hrun
  cases hrun

theorem visits_grow (g : Growth α) : Visits visit [] (grow g) := by
  intro w a w' hrun
  exact congrArg (fun r => r.2.names.map Prod.fst) hrun.symm

theorem visits_insert (d : Draft) : Visits visit [] (insert d) := visits_grow _

theorem Visits.bind {m : Compiling α} {f : α → Compiling β} (hm : Visits visit vs m)
    (hf : ∀ a, Visits visit us (f a)) : Visits visit (vs ++ us) (m >>= f) := by
  intro w b w'' hrun
  obtain ⟨a, w', hrun', hrun⟩ := bind_apply_eq_ok.1 hrun
  rw [List.foldl_append, ← hm w a w' hrun', hf a w' b w'' hrun]

/-- What is given is no visit. -/
theorem visits_givenBind {x : Except Failure α} {f : α → Compiling β}
    (h : ∀ a, x = .ok a → Visits visit vs (f a)) : Visits visit vs (given x >>= f) := by
  cases x with
  | error e => exact visits_fail e
  | ok a => simpa only [Form.given_ok, pure_bind] using h a rfl

/-- A last step without visits. -/
theorem Visits.andThen {m : Compiling α} {f : α → Compiling β} (hm : Visits visit vs m)
    (hf : ∀ a, Visits visit [] (f a)) : Visits visit vs (m >>= f) := by
  simpa only [List.append_nil] using hm.bind hf

/-- A name for the place of errors changes no run that succeeds. -/
theorem Visits.placed {m : Compiling α} (hm : Visits visit vs m) (name : String) :
    Visits visit vs (placed name m) := by
  intro w a w' hrun
  refine hm w a w' ?_
  unfold Compiling.placed at hrun
  split at hrun
  · cases hrun
  · exact hrun

/-- A loop visits what its rounds visit. -/
theorem visits_mapM {f : α → Compiling β} {refs : α → List Value} {xs : List α}
    (h : ∀ x ∈ xs, Visits visit (refs x) (f x)) : Visits visit (xs.flatMap refs) (xs.mapM f) := by
  induction xs with
  | nil => exact visits_pure []
  | cons x xs ih =>
    rw [List.forall_mem_cons] at h
    rw [List.mapM_cons, List.flatMap_cons]
    exact h.1.bind fun y => (ih h.2).andThen fun ys => visits_pure _

theorem visits_forM {f : α → Compiling Unit} {refs : α → List Value} {xs : List α}
    (h : ∀ x ∈ xs, Visits visit (refs x) (f x)) : Visits visit (xs.flatMap refs) (xs.forM f) := by
  induction xs with
  | nil => exact visits_pure ()
  | cons x xs ih =>
    rw [List.forall_mem_cons] at h
    exact h.1.bind fun _ => ih h.2

end Compiling

namespace TypeLibrary

open Compiling

section Declarations

variable {visit : List String → Value → List String} {ref : Value → String → Compiling SemId}
  (href : ∀ v place, Visits visit [v] (ref v place))

include href

/-- A union visits the types of its variants, in the order of their tags. -/
theorem visits_compileUnion (variants : Value) (name : String) :
    Visits visit (variantTypes variants) (compileUnion ref variants name) := by
  unfold compileUnion
  refine visits_givenBind fun tagged htagged => visits_givenBind fun sorted hsorted => ?_
  obtain ⟨entries, hentries, htagged⟩ := bind_eq_ok.1 htagged
  obtain ⟨ps, rfl, rfl, hps⟩ := mapM_eq_ok.1 htagged
  obtain rfl := mapping_eq_ok hentries
  have htypes : variantTypes (.map (ps.map Prod.fst)) =
      sorted.flatMap fun x => (Value.entry? x.2.1 "type").toList := by
    have hrows : (ps.map Prod.fst).map (fun e => (e.1, e.2, (Value.entry? e.2 "tag").getD .null)) =
        ps.map Prod.snd := by
      rw [List.map_map]
      refine List.map_congr_left fun q hq => ?_
      obtain ⟨tag, htag, h⟩ := bind_eq_ok.1 (hps q hq)
      rw [Function.comp_apply, required_eq_ok htag, ← Except.ok.inj h]
      rfl
    unfold variantTypes
    simp only [Value.entries?, Option.getD_some, hrows, hsorted]
    rw [List.filterMap_eq_flatMap_toList]
  rw [htypes]
  refine (visits_mapM fun x _ => ?_).andThen fun entries => visits_insert _
  refine visits_givenBind fun ty hty => ?_
  rw [required_eq_ok hty]
  refine (href ty name).andThen fun sid => ?_
  split
  · exact visits_pure _
  · exact visits_fail _

/-- A struct visits the types of its fields. -/
theorem visits_compileStruct (fields : Value) (name : String) :
    Visits visit ((fields.items?.getD []).filterMap fun field =>
      (field.entries?.bind List.head?).map Prod.snd) (compileStruct ref fields name) := by
  unfold compileStruct
  refine visits_givenBind fun items hitems => ?_
  rw [Value.iterate_eq_ok.1 hitems, Option.getD_some, List.filterMap_eq_flatMap_toList]
  refine (visits_mapM fun entry _ => ?_).andThen fun entries => visits_insert _
  refine visits_givenBind fun e he => ?_
  rw [single_eq_ok he]
  exact (href e.2 _).andThen fun sid => visits_pure _

omit href in
/-- A string visits nothing: its characters are no declared type. -/
theorem visits_compileText (decl first : Value) (name : String) :
    Visits visit [] (compileText decl first name) := by
  have hsplit : ∀ (first rest : Charset) (min max : Value), Visits visit [] (do
      let restId ← .insert rest.definition.toDraft
      let firstId ← .insert first.definition.toDraft
      let tailId ← .insert (.list restId (← .given (lowered min)) (← .given (lowered max)))
      .insert (.struct [(.text "first", firstId), (.text "rest", tailId)])) := by
    intro first rest min max
    refine (visits_insert _).andThen fun restId => (visits_insert _).andThen fun firstId => ?_
    refine visits_givenBind fun min _ => visits_givenBind fun max _ => ?_
    exact (visits_insert _).andThen fun tailId => visits_insert _
  unfold compileText
  refine visits_givenBind fun rest _ => visits_givenBind fun first _ => visits_givenBind fun _ _ => ?_
  dsimp only
  split
  · refine visits_givenBind fun empty _ => ?_
    split
    · exact visits_givenBind fun _ h => by cases h
    · exact hsplit first rest _ _
  · exact (visits_insert _).andThen fun restId => visits_insert _

/-- A mapping that declares a type visits what it calls for. -/
theorem visits_compileForm {decl : Value} {entries : List (Value × Value)} (hmap : decl = .map entries)
    (name : String) : Visits visit (calls decl) (compileForm ref decl name) := by
  rw [calls_of_map hmap]
  unfold compileForm formReferences
  -- the keys are looked for in the same order by both
  cases decl.entry? "primitive" with
  | some width => exact visits_insert _
  | none =>
  cases (decl.entry? "unicode").isSome with
  | true => exact visits_insert _
  | false =>
  cases decl.entry? "enum" with
  | some members => exact visits_givenBind fun sorted _ => visits_insert _
  | none =>
  cases decl.entry? "union" with
  | some variants => exact visits_compileUnion href variants name
  | none =>
  cases decl.entry? "option" with
  | some inner =>
    refine (href (.text "Unit") name).bind fun none => ?_
    exact (href inner name).andThen fun some => visits_insert _
  | none =>
  cases decl.entry? "tuple" with
  | some items =>
    refine visits_givenBind fun parts hparts => ?_
    have hround : Visits visit (parts.flatMap fun item => [item])
        (parts.mapM fun item => ref item name) := visits_mapM fun item _ => href item name
    rw [List.flatMap_singleton'] at hround
    simp only [Value.iterate_eq_ok.1 hparts]
    exact hround.andThen fun sids => visits_insert _
  | none =>
  cases decl.entry? "struct" with
  | some fields => exact visits_compileStruct href fields name
  | none =>
  cases decl.entry? "array" with
  | some item =>
    exact (href item name).andThen fun sid => visits_givenBind fun length _ => visits_insert _
  | none =>
  cases decl.entry? "list" with
  | some item => exact (href item name).andThen fun sid => visits_insert _
  | none =>
  cases decl.entry? "ascii" with
  | some first => exact visits_compileText decl first name
  | none =>
  cases decl.entry? "set" with
  | some item => exact (href item name).andThen fun sid => visits_insert _
  | none =>
  cases decl.entry? "map" with
  | some items =>
    refine visits_givenBind fun pair hpair => ?_
    obtain ⟨parts, hparts, hpair⟩ := bind_eq_ok.1 hpair
    show Visits visit (items.items?.getD []) _
    rw [Value.iterate_eq_ok.1 hparts]
    split at hpair
    · cases hpair
      exact (href _ name).bind fun key => (href _ name).andThen fun value => visits_insert _
    · cases hpair
    · cases hpair
  | none => exact visits_givenBind fun _ _ => visits_fail _

/-- Compiling a declaration visits what it calls for. -/
theorem visits_compileDeclaration (decl : Value) (name : String) :
    Visits visit (calls decl) (compileDeclaration ref decl name) := by
  cases decl with
  | text _ | broken _ => exact href _ name
  | map entries => exact visits_compileForm href rfl name
  | _ => exact visits_fail _

end Declarations

variable {lib : TypeLibrary} {used : List (String × SymbolicSystem)}

/-- Compiling a reference visits it. -/
theorem visits_compileReference (fuel : Nat) (chain : List String) (v : Value) (place : String) :
    Visits (lib.visit fuel) [v] (compileReference lib used fuel chain v place) := by
  -- the walk has the fuel of the compiler; it needs no chain, since a run that meets the chain fails
  induction fuel generalizing chain v place with
  | zero => exact visits_fail _
  | succ fuel ih =>
    intro w sid w' hrun
    rw [List.foldl_cons, List.foldl_nil]
    cases hname : referenceName place v with
    | error e =>
      rw [compileReference_error hname] at hrun
      cases hrun
    | ok ty =>
      obtain rfl := referenceName_eq_ok.1 hname
      cases hbuiltin : Codec.builtin? ty with
      | some builtin =>
        -- what is no local name may be compiled, too, but is never finished here
        rw [compileReference_builtin hbuiltin] at hrun
        have hnames : w'.names = w.names := congrArg (fun r => r.2.names) hrun.symm
        rw [visit_of_finished, hnames]
        rintro _ ⟨⟩ hlocal
        exact absurd hlocal.ordinary (by simp [hbuiltin])
      | none =>
      cases hcut : Text.cutFirst? '.' ty with
      | some parts =>
        rw [compileReference_qualified hbuiltin hcut] at hrun
        obtain rfl : w = w' := congrArg Prod.snd hrun
        rw [visit_of_finished]
        rintro _ ⟨⟩ hlocal
        exact absurd hlocal.plain (by simp [hcut])
      | none =>
      rw [compileReference_declared hbuiltin hcut] at hrun
      cases hknown : w.names.lookup ty with
      | some known =>
        rw [hknown] at hrun
        cases hrun
        refine (visit_of_finished ?_).symm
        rintro _ ⟨⟩ -
        exact isSome_lookup.1 (by rw [hknown]; rfl)
      | none =>
      rw [hknown] at hrun
      have hnew : ty ∉ w.names.map Prod.fst := by
        rw [← isSome_lookup, hknown]
        exact Bool.false_ne_true
      cases hdecl : Value.lookup? (.text ty) lib.declarations with
      | none =>
        rw [hdecl] at hrun
        cases hrun
      | some decl =>
      rw [hdecl] at hrun
      dsimp only at hrun
      split at hrun
      · cases hrun
      -- the calls of the declaration are visited before the name is finished
      obtain ⟨sid', w₁, hrun₁, hrun⟩ := bind_apply_eq_ok.1 hrun
      have hcalls := (visits_compileDeclaration (ih (ty :: chain)) decl ty).placed ty w sid' w₁ hrun₁
      cases hrun
      rw [visit_of_new ⟨hbuiltin, hcut⟩ hnew hdecl, List.map_append, hcalls]
      rfl

/-- The names of a library that compiles come in its finishing order. -/
theorem names_eq_finishingOrder {sys : SymbolicSystem} {written : List Event}
    (h : (lib.compile used written).1 = .ok sys) : sys.names.map Prod.fst = lib.finishingOrder := by
  obtain ⟨-, bench, done, hmerge, hall, rfl⟩ := compile_eq_ok.1 h
  have hvisits : Visits (lib.visit (lib.declarations.length + 1))
      (lib.declarations.flatMap fun e => [e.1]) (compileAllDeclarations lib used) :=
    visits_forM fun e _ => (visits_compileReference _ _ _ _).andThen fun _ => visits_pure ()
  have hnames := hvisits bench () done hall
  rw [← List.map_eq_flatMap, names_eq_nil_of_mergeUsed hmerge] at hnames
  exact hnames

/-! ## The order of the declarations -/

/-- The names under which declarations are made, in order. -/
def namesOf (declarations : List (Value × Value)) : List String :=
  declarations.filterMap fun e => match e.1 with | .text name => some name | _ => none

/-- Those of the names that are local. -/
def localsOf (declarations : List (Value × Value)) : List String :=
  (namesOf declarations).filter fun name => IsLocal name

theorem mem_namesOf {declarations : List (Value × Value)} {name : String} :
    name ∈ namesOf declarations ↔ ∃ decl, Value.lookup? (.text name) declarations = some decl := by
  constructor
  · intro h
    obtain ⟨⟨k, x⟩, he, hname⟩ := List.mem_filterMap.1 h
    cases k with
    | text s =>
      cases hname
      exact Value.exists_lookup?_of_mem he
    | _ => cases hname
  · rintro ⟨decl, hdecl⟩
    obtain ⟨k, hk, hsame⟩ := Value.exists_mem_of_lookup? hdecl
    exact List.mem_filterMap.2 ⟨_, hk, by rw [Value.eq_of_same_text hsame]⟩

theorem mem_localsOf {declarations : List (Value × Value)} {name : String} :
    name ∈ localsOf declarations ↔
      IsLocal name ∧ ∃ decl, Value.lookup? (.text name) declarations = some decl := by
  rw [localsOf, List.mem_filter, mem_namesOf, decide_eq_true_eq, and_comm]

theorem localsOf_append (before after : List (Value × Value)) :
    localsOf (before ++ after) = localsOf before ++ localsOf after := by
  simp only [localsOf, namesOf, List.filterMap_append, List.filter_append]

theorem localsOf_local {name : String} (h : IsLocal name) (decl : Value) :
    localsOf [(.text name, decl)] = [name] := by
  simp [localsOf, namesOf, h]

theorem localsOf_other {k : Value} (h : ∀ name, k = .text name → ¬ IsLocal name) (decl : Value) :
    localsOf [(k, decl)] = [] := by
  cases k with
  | text name => simp [localsOf, namesOf, h name rfl]
  | _ => rfl

/-- The declarations of a library **refer back** if a local one refers to no other local names than those
that are declared before. -/
def RefersBack (lib : TypeLibrary) : Prop :=
  ∀ a b, IsLocal a → IsLocal b → lib.Refers a b →
    (localsOf lib.declarations).idxOf b < (localsOf lib.declarations).idxOf a

/-- What has a smaller index than the first item behind a prefix is in the prefix. -/
theorem mem_of_idxOf_lt {α : Type} [DecidableEq α] {before after : List α} {a b : α} (ha : a ∉ before)
    (h : (before ++ a :: after).idxOf b < (before ++ a :: after).idxOf a) : b ∈ before := by
  by_contra hb
  rw [List.idxOf_append_of_notMem ha, List.idxOf_append_of_notMem hb, List.idxOf_cons_self] at h
  omega

/-- Where declarations refer back, a walk along them finishes their names one after another: those of
the declarations behind, when those of the declarations before are finished. -/
theorem foldl_visit_of_refersBack (hnodup : (localsOf lib.declarations).Nodup) (hback : lib.RefersBack)
    {before after : List (Value × Value)} (h : lib.declarations = before ++ after) :
    (after.map Prod.fst).foldl (lib.visit (fuel + 1)) (localsOf before) =
      localsOf lib.declarations := by
  induction after generalizing before with
  | nil => rw [h, List.append_nil]; rfl
  | cons e after ih =>
    obtain ⟨k, x⟩ := e
    have hsplit : lib.declarations = (before ++ [(k, x)]) ++ after := by rw [h, List.append_cons]
    rw [List.map_cons, List.foldl_cons, ← ih hsplit]
    congr 1
    by_cases hkey : ∃ name, k = .text name ∧ IsLocal name
    · obtain ⟨name, rfl, hlocal⟩ := hkey
      have hnames : localsOf lib.declarations = localsOf before ++ name :: localsOf after := by
        rw [hsplit, localsOf_append, localsOf_append, localsOf_local hlocal, ← List.append_cons]
      have hnew : name ∉ localsOf before := fun hmem =>
        List.disjoint_of_nodup_append (hnames ▸ hnodup) hmem (List.mem_cons_self ..)
      obtain ⟨-, decl, hdecl⟩ := mem_localsOf.1
        (hnames ▸ List.mem_append_right (localsOf before) (List.mem_cons_self ..))
      rw [visit_of_new hlocal hnew hdecl, foldl_visit_of_finished, localsOf_append,
        localsOf_local hlocal]
      -- it calls for names of smaller index only, and these are the finished ones
      intro b hb hlocal'
      have hlt := hback name b hlocal hlocal' ⟨decl, hdecl, mem_references_of_mem_calls hb⟩
      rw [hnames] at hlt
      exact mem_of_idxOf_lt hnew hlt
    · have hother : ∀ name, k = .text name → ¬ IsLocal name := fun name hname hlocal =>
        hkey ⟨name, hname, hlocal⟩
      rw [visit_of_finished fun name hname hlocal => absurd hlocal (hother name hname),
        localsOf_append, localsOf_other hother, List.append_nil]

variable {sys : SymbolicSystem}

/-- A name is finished behind the local ones that it refers to. -/
theorem Finished.idxOf_lt (h : lib.Finished used sys) {a b : String} (ha : IsLocal a) (hb : IsLocal b)
    (hrefers : lib.Refers a b) :
    (sys.names.map Prod.fst).idxOf b < (sys.names.map Prod.fst).idxOf a := by
  obtain ⟨before, after, hsplit, hmem⟩ := h.earlier ha hb hrefers
  exact idxOf_lt_of_earlier h.course.nodup hsplit hmem

/-- The finishing order is that of the declarations exactly if these refer back. -/
theorem finishingOrder_eq_localsOf_iff {written : List Event}
    (h : (lib.compile used written).1 = .ok sys) (hnodup : (localsOf lib.declarations).Nodup) :
    lib.finishingOrder = localsOf lib.declarations ↔ lib.RefersBack := by
  constructor
  · intro horder a b ha hb hrefers
    rw [← horder, ← names_eq_finishingOrder h]
    exact (finished_of_compile h).idxOf_lt ha hb hrefers
  · exact fun hback => foldl_visit_of_refersBack hnodup hback (List.nil_append _).symm

end TypeLibrary

/-! ## The name of an id -/

namespace SymbolicSystem

/-- The first of some names that has an id in a symbolic system. -/
def firstNamed? (sys : SymbolicSystem) (names : List String) (sid : SemId) : Option String :=
  names.find? fun name => sys.names.lookup name == some sid

variable {sys : SymbolicSystem} {sid : SemId}

theorem firstNamed?_eq_none_iff {names : List String} :
    sys.firstNamed? names sid = none ↔ ∀ name ∈ names, sys.names.lookup name ≠ some sid := by
  simp [firstNamed?]

/-- The name of an id is the first one of the index that has it. -/
theorem nameOf?_eq_firstNamed? (hnodup : (sys.names.map Prod.fst).Nodup) :
    sys.nameOf? sid = sys.firstNamed? (sys.names.map Prod.fst) sid := by
  rw [nameOf?, firstNamed?, List.find?_map]
  congr 1
  refine List.find?_congr fun e he => ?_
  rw [Function.comp_apply, (lookup_eq_some_iff_mem hnodup).2 he]
  rfl

/-- Names that are not in the index may be left out. -/
theorem firstNamed?_filter {names : List String} {p : String → Bool}
    (h : ∀ name ∈ sys.names.map Prod.fst, p name = true) :
    sys.firstNamed? (names.filter p) sid = sys.firstNamed? names sid := by
  rw [firstNamed?, List.find?_filter]
  refine List.find?_congr fun name _ => ?_
  by_cases hname : sys.names.lookup name = some sid
  · simp [hname, h name (isSome_lookup.1 (by rw [hname]; rfl))]
  · simp [hname]

/-- A name with an id is not the first one if an earlier name has the same id. -/
theorem firstNamed?_ne_of_idxOf_lt {names : List String} {a b : String}
    (hlt : names.idxOf b < names.idxOf a) (h : sys.names.lookup b = sys.names.lookup a) :
    sys.firstNamed? names sid ≠ some a := by
  intro hfirst
  obtain ⟨hsid, before, after, rfl, hbefore⟩ := List.find?_eq_some_iff_append.1 hfirst
  have hother : ∀ name ∈ before, sys.names.lookup name ≠ some sid := fun name hname => by
    simpa using hbefore name hname
  rw [beq_iff_eq] at hsid
  have ha : a ∉ before := fun ha => hother a ha hsid
  exact hother b (TypeLibrary.mem_of_idxOf_lt ha hlt) (h.trans hsid)

end SymbolicSystem

namespace TypeLibrary

variable {lib : TypeLibrary} {used : List (String × SymbolicSystem)} {sys : SymbolicSystem}

/-- Another name for a local name has the id of this name. -/
theorem lookup_eq_of_alias {written : List Event} (h : (lib.compile used written).1 = .ok sys)
    {a b : String} (ha : IsLocal a) (hb : IsLocal b)
    (halias : Value.lookup? (.text a) lib.declarations = some (.text b)) :
    sys.names.lookup b = sys.names.lookup a := by
  obtain ⟨sid, hsid⟩ := (finished_of_compile h).exists_lookup ha halias
  obtain ⟨-, -, decl, hdecl, hdeclares⟩ := (compiled_of_compile h).established _ (mem_of_lookup hsid)
  obtain rfl := Option.some.inj (halias.symm.trans hdecl)
  have hmeans := hdeclares.target b rfl
  rw [meaning?, hb.ordinary, hb.plain] at hmeans
  exact hmeans.trans hsid.symm

/-- **The name of an id is the first one in the finishing order.** A library that compiles has its local
names in the order in which a depth-first walk finishes them, each behind those that it refers to. The
name of an id is the first one of them with this id; there is none if no declared name has it. The order
is that of the declarations exactly if these refer back, and the name of an id is then the first declared
one. Another name for a local name, wherever it is declared, is not the name of an id. -/
theorem nameOf?_of_compile {written : List Event} (h : (lib.compile used written).1 = .ok sys)
    (hnodup : (namesOf lib.declarations).Nodup) :
    sys.names.map Prod.fst = lib.finishingOrder ∧
    lib.finishingOrder.Perm (localsOf lib.declarations) ∧
    (∀ a b, IsLocal a → IsLocal b → lib.Refers a b →
      lib.finishingOrder.idxOf b < lib.finishingOrder.idxOf a) ∧
    (∀ sid, sys.nameOf? sid = sys.firstNamed? lib.finishingOrder sid) ∧
    (∀ sid, sys.nameOf? sid = none ↔
      ∀ name ∈ namesOf lib.declarations, sys.names.lookup name ≠ some sid) ∧
    (lib.finishingOrder = localsOf lib.declarations ↔ lib.RefersBack) ∧
    (lib.RefersBack → ∀ sid, sys.nameOf? sid = sys.firstNamed? (namesOf lib.declarations) sid) ∧
    ∀ a b, IsLocal a → IsLocal b → Value.lookup? (.text a) lib.declarations = some (.text b) →
      ∀ sid, sys.nameOf? sid ≠ some a := by
  have hfinished := finished_of_compile h
  have horder := names_eq_finishingOrder h
  have hlocals : (localsOf lib.declarations).Nodup := hnodup.filter _
  have hmem : ∀ name, name ∈ lib.finishingOrder ↔ name ∈ localsOf lib.declarations := by
    intro name
    rw [← horder, hfinished.mem_names, mem_localsOf]
  have hearlier : ∀ a b, IsLocal a → IsLocal b → lib.Refers a b →
      lib.finishingOrder.idxOf b < lib.finishingOrder.idxOf a := fun a b ha hb hrefers => by
    rw [← horder]
    exact hfinished.idxOf_lt ha hb hrefers
  have hfirst : ∀ sid, sys.nameOf? sid = sys.firstNamed? lib.finishingOrder sid := fun sid => by
    rw [← horder, SymbolicSystem.nameOf?_eq_firstNamed? hfinished.course.nodup]
  have hdeclared : ∀ sid, sys.firstNamed? (localsOf lib.declarations) sid =
      sys.firstNamed? (namesOf lib.declarations) sid := fun sid =>
    SymbolicSystem.firstNamed?_filter fun name hname =>
      decide_eq_true (hfinished.mem_names.1 hname).1
  have hback := finishingOrder_eq_localsOf_iff h hlocals
  refine ⟨horder, ?_, hearlier, hfirst, fun sid => ?_, hback, fun hrefers sid => ?_,
    fun a b ha hb halias sid => ?_⟩
  · exact (List.perm_ext_iff_of_nodup (horder ▸ hfinished.course.nodup) hlocals).2 hmem
  · rw [hfirst, ← SymbolicSystem.firstNamed?_eq_none_iff, ← hdeclared,
      SymbolicSystem.firstNamed?_eq_none_iff, SymbolicSystem.firstNamed?_eq_none_iff]
    simp only [hmem]
  · rw [hfirst, hback.2 hrefers, hdeclared]
  · rw [hfirst]
    have hrefers : lib.Refers a b := ⟨_, halias, List.mem_singleton.2 rfl⟩
    exact SymbolicSystem.firstNamed?_ne_of_idxOf_lt (hearlier a b ha hb hrefers)
      (lookup_eq_of_alias h ha hb halias)

/-- The other name of a type is declared ahead of the type, finished behind it, and the name of no id. -/
theorem nameOf?_of_compile_counting : ∃ sys, (counting.compile [] []).1 = .ok sys ∧
    (namesOf counting.declarations).Nodup ∧
    (∀ sid, sys.nameOf? sid = sys.firstNamed? ["Word", "Count"] sid) ∧
    ¬ counting.RefersBack ∧ ∀ sid, sys.nameOf? sid ≠ some "Count" := by
  have hsome : (counting.compile [] []).1.toOption.isSome = true := by with_unfolding_all rfl
  obtain ⟨sys, hsys⟩ := Option.isSome_iff_exists.1 hsome
  have hcompile := toOption_eq_some.1 hsys
  have hnodup : (namesOf counting.declarations).Nodup := by decide
  have horder : counting.finishingOrder = ["Word", "Count"] := by decide +kernel
  have hlocals : localsOf counting.declarations = ["Count", "Word"] := by decide +kernel
  obtain ⟨-, -, -, hfirst, -, hback, -, halias⟩ := nameOf?_of_compile hcompile hnodup
  have hcount : IsLocal "Count" := ⟨by decide, by decide⟩
  have hword : IsLocal "Word" := ⟨by decide, by decide⟩
  refine ⟨sys, hcompile, hnodup, horder ▸ hfirst, ?_, halias "Count" "Word" hcount hword ?_⟩
  · rw [← hback, horder, hlocals]
    decide
  · simp [counting, Declaration.named, Value.lookup?, Value.same]

/-- The name of an id is not the first declared one: a document that declares the other name of a type
ahead of it compiles, and the name of their common id is the one that is declared last. -/
theorem nameOf?_ne_first_declared :
    ofDocument (documentOf "Counting" [("Count", .text "Word"),
      ("Word", Declaration.entries [("primitive", .int 4)])]) = .ok counting ∧
    ∃ sys sid, (counting.compile [] []).1 = .ok sys ∧ sys.resolve "Count" = .ok sid ∧
      sys.firstNamed? (namesOf counting.declarations) sid = some "Count" ∧
      sys.nameOf? sid = some "Word" := by
  have hcheck : DocumentSchema.typeLibrary.check (documentOf "Counting" [("Count", .text "Word"),
      ("Word", Declaration.entries [("primitive", .int 4)])]) = .ok [] :=
    DocumentSchema.check_eq_nil.2 (List.isEmpty_iff.1 (by with_unfolding_all rfl))
  have hsome : (counting.compile [] []).1.toOption.isSome = true := by with_unfolding_all rfl
  obtain ⟨sys, hsys⟩ := Option.isSome_iff_exists.1 hsome
  have hcompile := toOption_eq_some.1 hsys
  have hcount : IsLocal "Count" := ⟨by decide, by decide⟩
  have halias : Value.lookup? (.text "Count") counting.declarations = some (.text "Word") := by
    simp [counting, Declaration.named, Value.lookup?, Value.same]
  obtain ⟨sid, hsid⟩ := (finished_of_compile hcompile).exists_lookup hcount halias
  have hword := lookup_eq_of_alias hcompile hcount ⟨by decide, by decide⟩ halias
  have hnames : sys.names.map Prod.fst = ["Word", "Count"] := by
    rw [names_eq_finishingOrder hcompile]
    decide +kernel
  have hcut : Text.cutLast? '.' "Count" = none := by decide
  refine ⟨ofDocument_documentOf hcheck, sys, sid, hcompile, ?_, ?_, ?_⟩
  · rw [SymbolicSystem.resolve, hcut]
    dsimp only
    rw [SymbolicSystem.resolveLocal, hsid]
  · have hdeclared : namesOf counting.declarations = ["Count", "Word"] := by decide
    simp [SymbolicSystem.firstNamed?, hdeclared, hsid]
  · rw [SymbolicSystem.nameOf?_eq_firstNamed? (finished_of_compile hcompile).course.nodup, hnames]
    simp [SymbolicSystem.firstNamed?, hword, hsid]

end TypeLibrary

end StrictContract
