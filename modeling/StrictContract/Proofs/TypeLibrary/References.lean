import StrictContract.Proofs.TypeLibrary.Script

/-! # References — which types a declaration refers to

The **references** of a declaration are read off its form: the target of an alias, the types of
variants, items and fields. A name **refers** to another one if its declaration has a reference to it.
Compiling a declaration is scripted by its references: none is left out, and no other one is
compiled. -/

namespace StrictContract

/-! ## Sorting and unique keys -/

namespace Value

variable {α : Type}

/-- Sorting neither loses nor adds an item. -/
theorem mem_insertOn {key : α → Value} {a x : α} {items sorted : List α}
    (h : insertOn key a items = .ok sorted) : x ∈ sorted ↔ x = a ∨ x ∈ items := by
  induction items generalizing sorted with
  | nil =>
    cases h
    exact List.mem_cons
  | cons b items ih =>
    rw [insertOn] at h
    obtain ⟨before, -, h⟩ := bind_eq_ok.1 h
    split at h
    · cases h
      exact List.mem_cons
    · obtain ⟨rest, hrest, h⟩ := bind_eq_ok.1 h
      cases h
      rw [List.mem_cons, ih hrest, List.mem_cons]
      tauto

theorem mem_sortOn {key : α → Value} {x : α} {items sorted : List α}
    (h : sortOn key items = .ok sorted) : x ∈ sorted ↔ x ∈ items := by
  have hfold : ∀ start : List α, items.foldlM (fun sorted a => insertOn key a sorted) start =
      .ok sorted → (x ∈ sorted ↔ x ∈ items ∨ x ∈ start) := by
    clear h
    induction items with
    | nil =>
      intro start h
      cases h
      simp
    | cons a items ih =>
      intro start h
      rw [List.foldlM_cons] at h
      obtain ⟨next, hnext, h⟩ := bind_eq_ok.1 h
      rw [ih next h, mem_insertOn hnext, List.mem_cons]
      tauto
  simpa using hfold [] h

/-- Entries with unique keys have values of the entries. -/
theorem exists_mem_of_mem_unique {entries : List (Value × α)} {e : Value × α}
    (h : e ∈ unique entries) : ∃ f ∈ entries, f.2 = e.2 := by
  have hfold : ∀ known : List (Value × α), e ∈ entries.foldl (fun acc x => setEntry acc x.1 x.2) known →
      (∃ f ∈ entries, f.2 = e.2) ∨ ∃ f ∈ known, f.2 = e.2 := by
    clear h
    induction entries with
    | nil => exact fun known h => .inr ⟨e, h, rfl⟩
    | cons x entries ih =>
      intro known h
      rcases ih _ h with ⟨f, hf, heq⟩ | ⟨f, hf, heq⟩
      · exact .inl ⟨f, List.mem_cons_of_mem _ hf, heq⟩
      · dsimp only [setEntry] at hf
        split at hf
        · obtain ⟨g, hg, rfl⟩ := List.mem_map.1 hf
          split at heq
          · exact .inl ⟨x, List.mem_cons_self .., heq⟩
          · exact .inr ⟨g, hg, heq⟩
        · rcases List.mem_cons.1 hf with rfl | hf
          · exact .inl ⟨x, List.mem_cons_self .., heq⟩
          · exact .inr ⟨f, hf, heq⟩
  simpa using hfold [] (List.mem_reverse.1 h)

end Value

/-! ## The references of a declaration -/

namespace TypeLibrary

open Compiling (Scripted)

/-- The references of a mapping that declares a type: the first known form counts. -/
def formReferences (decl : Value) : List Value :=
  if (decl.entry? "primitive").isSome then []
  else if (decl.entry? "unicode").isSome then []
  else if (decl.entry? "enum").isSome then []
  else if let some variants := decl.entry? "union" then
    (variants.entries?.getD []).filterMap fun e => Value.entry? e.2 "type"
  else if let some inner := decl.entry? "option" then [.text "Unit", inner]
  else if let some items := decl.entry? "tuple" then items.items?.getD []
  else if let some fields := decl.entry? "struct" then
    (fields.items?.getD []).filterMap fun field => (field.entries?.bind List.head?).map Prod.snd
  else if let some item := decl.entry? "array" then [item]
  else if let some item := decl.entry? "list" then [item]
  else if (decl.entry? "ascii").isSome then []
  else if let some item := decl.entry? "set" then [item]
  else if let some items := decl.entry? "map" then items.items?.getD []
  else []

/-- The **references** of a declaration: its target, or those of its form. -/
def references (decl : Value) : List Value :=
  match decl with
  | .text _ | .broken _ => [decl]
  | .map _ => formReferences decl
  | _ => []

/-- A name is **local** if a reference to it is one to a declaration of its library: it is no builtin, and
it is not qualified with the name of a library. -/
structure IsLocal (name : String) : Prop where
  ordinary : Codec.builtin? name = none
  plain : Text.cutFirst? '.' name = none

/-- A declared name **refers** to those that are references of its declaration. -/
def Refers (lib : TypeLibrary) (a b : String) : Prop :=
  ∃ decl, Value.lookup? (.text a) lib.declarations = some decl ∧ .text b ∈ references decl

/-- What is required of a mapping is an entry of it. -/
theorem required_eq_ok {v x : Value} {name : String} (h : required v name = .ok x) :
    v.entry? name = some x := by
  unfold required at h
  split at h
  · split at h
    · cases h
      assumption
    · cases h
  · cases h

theorem mapping_eq_ok {v : Value} {entries : List (Value × Value)} (h : mapping v = .ok entries) :
    v = .map entries := by
  unfold mapping at h
  split at h
  · cases h
    rfl
  · cases h

theorem single_eq_ok {v : Value} {entry : Value × Value} (h : single v = .ok entry) :
    v = .map [entry] := by
  unfold single at h
  obtain ⟨entries, hentries, h⟩ := bind_eq_ok.1 h
  split at h
  · cases h
    exact mapping_eq_ok hentries
  · cases h
  · cases h

variable {known : List SemId}

/-- A union is scripted by the types of its variants. -/
theorem scripted_compileUnion (v : Value) (name : String) :
    Scripted known ((v.entries?.getD []).filterMap fun e => Value.entry? e.2 "type")
      (fun ref => compileUnion ref v name) fun sid => [sid] := by
  unfold compileUnion
  refine .givenBind fun tagged htagged => .givenBind fun sorted hsorted => ?_
  obtain ⟨entries, hentries, htagged⟩ := bind_eq_ok.1 htagged
  obtain ⟨ps, rfl, rfl, hps⟩ := mapM_eq_ok.1 htagged
  obtain rfl := mapping_eq_ok hentries
  have hround : ∀ x ∈ sorted, ∀ known, Scripted known (Value.entry? x.2.1 "type").toList (fun ref => do
      let sid ← ref (← .given (required x.2.1 "type")) name
      if x.2.2.isKey then return (x.2.2, x.1, sid) else .given (misuse .wrongType))
      fun entry => [entry.2.2] := by
    intro x _ known
    refine .givenBind fun ty hty => ?_
    rw [required_eq_ok hty]
    refine .andThen (.reference ty name) fun sid => ?_
    split
    · exact .pure _ (by simp)
    · exact .fail _
  refine .andThen (.arrange (.mapM hround known) fun ty => ?_) fun entries => .insert _ ?_
  · -- each entry of the mapping is a row, and sorting keeps the rows
    have hrow : ∀ q ∈ ps, ∃ tag, q.2 = (q.1.1, q.1.2, tag) := by
      intro q hq
      obtain ⟨tag, -, h⟩ := bind_eq_ok.1 (hps q hq)
      exact ⟨tag, (Except.ok.inj h).symm⟩
    simp only [Value.entries?, Option.getD_some, List.mem_filterMap, List.mem_flatMap,
      Option.mem_toList, Value.mem_sortOn hsorted, List.mem_map]
    constructor
    · rintro ⟨_, ⟨q, hq, rfl⟩, hty⟩
      obtain ⟨tag, htag⟩ := hrow q hq
      exact ⟨q.2, ⟨q, hq, rfl⟩, by rw [htag]; exact hty⟩
    · rintro ⟨_, ⟨q, hq, rfl⟩, hty⟩
      obtain ⟨tag, htag⟩ := hrow q hq
      rw [htag] at hty
      exact ⟨q.1, ⟨q, hq, rfl⟩, hty⟩
  · intro sid hsid
    obtain ⟨e, he, rfl⟩ := List.mem_map.1 hsid
    obtain ⟨f, hf, heq⟩ := Value.exists_mem_of_mem_unique he
    refine List.mem_append_left _ (List.mem_flatMap.2 ⟨f, hf, ?_⟩)
    exact List.mem_singleton.2 (congrArg Prod.snd heq).symm

/-- A struct is scripted by the types of its fields. -/
theorem scripted_compileStruct (v : Value) (name : String) :
    Scripted known ((v.items?.getD []).filterMap fun field =>
        (field.entries?.bind List.head?).map Prod.snd)
      (fun ref => compileStruct ref v name) fun sid => [sid] := by
  unfold compileStruct
  refine .givenBind fun items hitems => ?_
  have hround : ∀ entry ∈ items, ∀ known, Scripted known
      ((entry.entries?.bind List.head?).map Prod.snd).toList (fun ref => do
        let e ← Compiling.given (single entry)
        return (e.1, ← ref e.2 (name ++ "." ++ e.1.display))) fun field => [field.2] := by
    intro entry _ known
    refine .givenBind fun e he => ?_
    rw [single_eq_ok he]
    exact .andThen (.reference e.2 _) fun sid => .pure _ (by simp)
  refine .andThen (.arrange (.mapM hround known) fun ty => ?_) fun entries => .insert _ ?_
  · rw [Value.iterate_eq_ok.1 hitems]
    simp [List.mem_filterMap, List.mem_flatMap]
  · intro sid hsid
    obtain ⟨e, he, rfl⟩ := List.mem_map.1 hsid
    exact List.mem_append_left _ (List.mem_flatMap.2 ⟨e, he, List.mem_singleton.2 rfl⟩)

/-- A string is scripted by no references: its characters are no declared type. -/
theorem scripted_compileText (decl v : Value) (name : String) :
    Scripted known [] (fun _ => compileText decl v name) fun sid => [sid] := by
  have hleaf : ∀ (cs : Charset) (known : List SemId),
      Scripted known [] (fun _ => Compiling.insert cs.definition.toDraft) fun sid => [sid] := by
    intro cs known
    refine .insert _ fun ref href => ?_
    rw [TypeDef.references_toDraft] at href
    cases href
  have hsplit : ∀ (first rest : Charset) (min max : Value), Scripted known [] (fun _ => do
      let restId ← .insert rest.definition.toDraft
      let firstId ← .insert first.definition.toDraft
      let tailId ← .insert (.list restId (← .given (lowered min)) (← .given (lowered max)))
      .insert (.struct [(.text "first", firstId), (.text "rest", tailId)])) fun sid => [sid] := by
    intro first rest min max
    refine .andThen (hleaf rest _) fun restId => .andThen (hleaf first _) fun firstId => ?_
    refine .givenBind fun min _ => .givenBind fun max _ => ?_
    refine .andThen (.insert _ ?_) fun tailId => .insert _ ?_
    · simp [Definition.references]
    · simp [Definition.references]
  unfold compileText
  refine .givenBind fun rest _ => .givenBind fun first _ => .givenBind fun _ _ => ?_
  dsimp only
  cases Codec.isSplit first rest with
  | true =>
    simp only [if_true]
    refine .givenBind fun empty _ => ?_
    cases empty with
    | true => exact .givenBind fun _ h => by cases h
    | false =>
      simp only [Bool.false_eq_true, if_false]
      exact hsplit first rest _ _
  | false =>
    simp only [Bool.false_eq_true, if_false]
    exact .andThen (hleaf rest _) fun restId => .insert _ (by simp [Definition.references])

/-- A mapping that declares a type is scripted by its references. -/
theorem scripted_compileForm (decl : Value) (name : String) :
    Scripted known (formReferences decl) (fun ref => compileForm ref decl name) fun sid => [sid] := by
  unfold compileForm formReferences
  have hleaf : ∀ d : Draft, d.references = [] →
      Scripted known [] (fun _ => Compiling.insert d) fun sid => [sid] := fun d hd =>
    .insert d (hd ▸ nofun)
  have hitem : ∀ (item : Value) (shape : SemId → Draft), (∀ sid, (shape sid).references = [sid]) →
      Scripted known [item] (fun ref => do .insert (shape (← ref item name))) fun sid => [sid] := by
    intro item shape hshape
    refine .andThen (.reference item name) fun sid => .insert _ ?_
    simp [hshape]
  -- the keys are looked for in the same order by both
  cases decl.entry? "primitive" with
  | some width => exact hleaf _ rfl
  | none =>
  cases (decl.entry? "unicode").isSome with
  | true => exact hleaf _ rfl
  | false =>
  cases decl.entry? "enum" with
  | some members => exact .givenBind fun sorted _ => hleaf _ rfl
  | none =>
  cases decl.entry? "union" with
  | some variants => exact scripted_compileUnion variants name
  | none =>
  cases decl.entry? "option" with
  | some inner =>
    refine .bind (.reference (.text "Unit") name) fun none => ?_
    exact .andThen (.reference inner name) fun some => .insert _ (by simp [Definition.references])
  | none =>
  cases decl.entry? "tuple" with
  | some items =>
    refine .givenBind fun parts hparts => ?_
    simp only [Value.iterate_eq_ok.1 hparts]
    refine .andThen (.arrange (.mapM (fun item _ known => .reference item name) known) ?_)
      fun sids => .insert _ ?_
    · simp
    · exact fun sid hsid => List.mem_append_left _ (by simpa [Definition.references] using hsid)
  | none =>
  cases decl.entry? "struct" with
  | some fields => exact scripted_compileStruct fields name
  | none =>
  cases decl.entry? "array" with
  | some item =>
    refine .andThen (.reference item name) fun sid => .givenBind fun length _ => .insert _ ?_
    simp [Definition.references]
  | none =>
  cases decl.entry? "list" with
  | some item => exact hitem item _ fun _ => rfl
  | none =>
  cases decl.entry? "ascii" with
  | some first => exact scripted_compileText decl first name
  | none =>
  cases decl.entry? "set" with
  | some item => exact hitem item _ fun _ => rfl
  | none =>
  cases decl.entry? "map" with
  | some items =>
    refine .givenBind fun pair hpair => ?_
    obtain ⟨parts, hparts, hpair⟩ := bind_eq_ok.1 hpair
    show Scripted known (items.items?.getD []) _ _
    rw [Value.iterate_eq_ok.1 hparts]
    split at hpair
    · cases hpair
      refine .bind (.reference _ name) fun key => .andThen (.reference _ name) fun value => ?_
      exact .insert _ (by simp [Definition.references])
    · cases hpair
    · cases hpair
  | none => exact .givenBind fun _ _ => .fail _

/-- Compiling a declaration is scripted by its references. -/
theorem scripted_compileDeclaration (known : List SemId) (decl : Value) (name : String) :
    Scripted known (references decl) (fun ref => compileDeclaration ref decl name)
      fun sid => [sid] := by
  cases decl with
  | text _ | broken _ => exact .reference _ name
  | map entries => exact scripted_compileForm (.map entries) name
  | _ => exact .fail _

end TypeLibrary

end StrictContract
