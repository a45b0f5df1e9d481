import StrictContract.Proofs.TypeLibrary.Workbench

/-! # Compiling — what is established for every name that is compiled

A run that compiles a reference gives the id that its name **means**: that of a builtin, of a name of
a used library, or of a declared name. A declared name is **established** with the id of the type that
it is declared as, or of the definition that its form describes. Names are compiled on demand, so the
run keeps apart the names that are established and those of which the declaration is being compiled. -/

namespace StrictContract

open TypeSystem

variable {α β : Type}

/-! ## Declarations -/

namespace TypeLibrary

variable {P : Workbench → Prop}

section Kept

-- whatever the parts of a declaration are, compiling it keeps what compiling references keeps
variable {ref : Value → String → Compiling SemId}

theorem kept_insert (hP : Stable P) (d : Draft) :
    Compiling.Achieves P (.insert d) fun _ _ => True :=
  (Compiling.achieves_insert hP d).imp fun _ _ _ _ => trivial

theorem kept_given (x : Except Failure α) : Compiling.Achieves P (.given x) fun _ _ => True :=
  Compiling.achieves_given fun _ _ _ _ => trivial

theorem kept_mapM {f : α → Compiling β} {xs : List α}
    (h : ∀ x ∈ xs, Compiling.Achieves P (f x) fun _ _ => True) :
    Compiling.Achieves P (xs.mapM f) fun _ _ => True :=
  (Compiling.achieves_mapM (fun _ _ _ _ _ _ => trivial) h).imp fun _ _ _ _ => trivial

variable (hP : Stable P) (href : ∀ v place, Compiling.Achieves P (ref v place) fun _ _ => True)
include hP href

theorem kept_compileUnion (v : Value) (name : String) :
    Compiling.Achieves P (compileUnion ref v name) fun _ _ => True := by
  unfold compileUnion
  refine (kept_given _).andThen fun tagged => (kept_given _).andThen fun sorted => ?_
  refine (kept_mapM fun x _ => ?_).andThen fun entries => kept_insert hP _
  refine (kept_given _).andThen fun ty => (href ty name).andThen fun sid => ?_
  split
  · exact Compiling.achieves_pure fun _ _ => trivial
  · exact kept_given _

theorem kept_compileStruct (v : Value) (name : String) :
    Compiling.Achieves P (compileStruct ref v name) fun _ _ => True := by
  unfold compileStruct
  refine (kept_given _).andThen fun items => ?_
  refine (kept_mapM fun x _ => ?_).andThen fun entries => kept_insert hP _
  refine (kept_given _).andThen fun entry => (href _ _).andThen fun sid => ?_
  exact Compiling.achieves_pure fun _ _ => trivial

omit href in
theorem kept_compileText (decl v : Value) (name : String) :
    Compiling.Achieves P (compileText decl v name) fun _ _ => True := by
  have hsplit : ∀ (first rest : Charset) (min max : Value), Compiling.Achieves P (do
      let restId ← .insert rest.definition.toDraft
      let firstId ← .insert first.definition.toDraft
      let tailId ← .insert (.list restId (← .given (lowered min)) (← .given (lowered max)))
      .insert (.struct [(.text "first", firstId), (.text "rest", tailId)])) fun _ _ => True := by
    intro first rest min max
    refine (kept_insert hP _).andThen fun restId => (kept_insert hP _).andThen fun firstId => ?_
    refine (kept_given _).andThen fun min => (kept_given _).andThen fun max => ?_
    exact (kept_insert hP _).andThen fun tailId => kept_insert hP _
  unfold compileText
  refine (kept_given _).andThen fun rest => (kept_given _).andThen fun first => ?_
  refine (kept_given _).andThen fun _ => ?_
  dsimp only
  split
  · refine (kept_given _).andThen fun empty => ?_
    split
    · exact (kept_given _).andThen fun _ => hsplit first rest _ _
    · exact hsplit first rest _ _
  · exact (kept_insert hP _).andThen fun restId => kept_insert hP _

theorem kept_compileForm (decl : Value) (name : String) :
    Compiling.Achieves P (compileForm ref decl name) fun _ _ => True := by
  unfold compileForm
  dsimp only
  split
  · exact kept_insert hP _
  split
  · exact kept_insert hP _
  split
  · exact (kept_given _).andThen fun _ => kept_insert hP _
  split
  · exact kept_compileUnion hP href _ _
  split
  · exact (href _ _).andThen fun _ => (href _ _).andThen fun _ => kept_insert hP _
  split
  · refine (kept_given _).andThen fun items => ?_
    exact (kept_mapM fun x _ => href x name).andThen fun _ => kept_insert hP _
  split
  · exact kept_compileStruct hP href _ _
  split
  · exact (href _ _).andThen fun _ => (kept_given _).andThen fun _ => kept_insert hP _
  split
  · exact (href _ _).andThen fun _ => kept_insert hP _
  split
  · exact kept_compileText hP _ _ _
  split
  · exact (href _ _).andThen fun _ => kept_insert hP _
  split
  · refine (kept_given _).andThen fun x => ?_
    exact (href _ _).andThen fun _ => (href _ _).andThen fun _ => kept_insert hP _
  · exact (kept_given _).andThen fun _ => kept_given _

end Kept

end TypeLibrary

/-! ## Forms -/

namespace Form

variable {P : Workbench → Prop} {means : Workbench → String → SemId → Prop}
  {ref : String → String → Compiling SemId}

/-- Assembling a form achieves the definition that it describes. -/
theorem achieves_assemble (hP : Stable P) (hmeans : ∀ ty, Lasting fun w sid => means w ty sid)
    (href : ∀ ty place, Compiling.Achieves P (ref ty place) fun w sid => means w ty sid)
    (form : Form) (name : String) :
    Compiling.Achieves P (form.assemble ref (fun d => .insert d.toDraft) name)
      fun w d => form.Describes (means w) d := by
  have hdefine : ∀ d : TypeDef, Compiling.Achieves P (.insert d.toDraft)
      fun _ sid => d.toDraft.semId = .ok sid := fun d =>
    (Compiling.achieves_insert hP _).imp fun _ _ _ h => h.named
  have hnamed : ∀ d : TypeDef, Lasting fun (_ : Workbench) sid => d.toDraft.semId = .ok sid :=
    fun _ _ _ _ _ h => h
  cases form with
  | primitive width => exact Compiling.achieves_pure fun _ _ => .primitive width
  | unicode => exact Compiling.achieves_pure fun _ _ => .unicode
  | enumeration members => exact Compiling.achieves_pure fun _ _ => .enumeration members
  | union variants =>
    have hrow : ∀ v : String × Nat × String, Lasting fun w (row : Nat × String × SemId) =>
        row.1 = v.2.1 ∧ row.2.1 = v.1 ∧ means w v.2.2 row.2.2 :=
      fun v w w' row hgrows h => ⟨h.1, h.2.1, hmeans _ w w' _ hgrows h.2.2⟩
    refine (Compiling.achieves_mapM hrow fun v _ => ?_).bind ?_ fun rows =>
      Compiling.achieves_pure fun _ _ hrows => .union hrows
    · exact (href v.2.2 name).bind (hmeans _) fun sid =>
        Compiling.achieves_pure fun _ _ h => ⟨rfl, rfl, h⟩
    · exact fun w w' rows hgrows h => h.imp fun v row => hrow v w w' row hgrows
  | option inner =>
    refine (href "Unit" name).bind (hmeans _) fun none => (href inner name).bind (hmeans _) fun some => ?_
    exact Compiling.achieves_pure fun _ _ hsome hnone => .option hnone hsome
  | tuple items =>
    refine (Compiling.achieves_mapM hmeans fun item _ => href item name).bind ?_ fun sids =>
      Compiling.achieves_pure fun _ _ h => .tuple h
    exact fun w w' sids hgrows h => h.imp fun item sid => hmeans item w w' sid hgrows
  | struct fields =>
    have hfield : ∀ f : String × String, Lasting fun w (k : String × SemId) =>
        k.1 = f.1 ∧ means w f.2 k.2 :=
      fun f w w' k hgrows h => ⟨h.1, hmeans _ w w' _ hgrows h.2⟩
    refine (Compiling.achieves_mapM hfield fun f _ => ?_).bind ?_ fun known =>
      Compiling.achieves_pure fun _ _ h => .struct h
    · exact (href f.2 _).bind (hmeans _) fun sid => Compiling.achieves_pure fun _ _ h => ⟨rfl, h⟩
    · exact fun w w' known hgrows h => h.imp fun f k => hfield f w w' k hgrows
  | array item length =>
    exact (href item name).bind (hmeans _) fun sid =>
      Compiling.achieves_pure fun _ _ h => .array h length
  | list item min max =>
    exact (href item name).bind (hmeans _) fun sid =>
      Compiling.achieves_pure fun _ _ h => .list h min max
  | ascii first rest min max =>
    refine (hdefine rest.definition).bind (hnamed _) fun restId => ?_
    cases hsplit : Codec.isSplit first rest with
    | false =>
      obtain rfl : first = rest := by simpa [Codec.isSplit] using hsplit
      exact Compiling.achieves_pure fun _ _ h => .text h min max
    | true =>
      refine (hdefine first.definition).bind (hnamed _) fun firstId => ?_
      refine (hdefine _).bind (hnamed _) fun tailId => ?_
      exact Compiling.achieves_pure fun _ _ htail hfirst hrest =>
        .splitText hsplit hfirst hrest htail
  | set item min max =>
    exact (href item name).bind (hmeans _) fun sid =>
      Compiling.achieves_pure fun _ _ h => .set h min max
  | map key value min max =>
    refine (href key name).bind (hmeans _) fun keyId => ?_
    refine (href value name).bind (hmeans _) fun valueId => ?_
    exact Compiling.achieves_pure fun _ _ hvalue hkey => .map hkey hvalue min max

/-- Compiling a form achieves that the definition which it describes stands. -/
theorem achieves_compile (hP : Stable P) (hmeans : ∀ ty, Lasting fun w sid => means w ty sid)
    (href : ∀ ty place, Compiling.Achieves P (ref ty place) fun w sid => means w ty sid)
    (form : Form) (name : String) :
    Compiling.Achieves P (form.compile ref name) fun w sid =>
      form.check name = .ok () ∧ ∃ d, form.Describes (means w) d ∧ w.types.Stands d.toDraft sid := by
  unfold compile
  refine (Compiling.achieves_given (Q := fun _ _ => form.check name = .ok ()) fun _ h _ _ => h).bind
    (fun _ _ _ _ h => h) fun _ => ?_
  refine (achieves_assemble hP hmeans href form name).bind
    (fun w w' d hgrows h => h.imp fun ty sid => hmeans ty w w' sid hgrows) fun d => ?_
  exact (Compiling.achieves_insert hP _).imp fun w sid _ hstands hd hcheck =>
    ⟨hcheck, d, hd, hstands⟩

end Form

/-! ## References -/

/-- A builtin has one definition, which is valid and refers to nothing. -/
theorem Codec.exists_define_of_builtin {ty : String} {c : Codec} (h : Codec.builtin? ty = some c) :
    ∃ d : TypeDef, c.derive = Growth.define d ∧ c.core.semId = d.toDraft.semId ∧
      d.toDraft.validate = .ok () ∧ d.references = [] := by
  unfold Codec.builtin? at h
  split at h <;> cases h
  all_goals exact ⟨_, rfl, rfl, toOption_eq_some.1 (by decide +kernel), rfl⟩

namespace TypeLibrary

/-- The id that the name of a type means, given the ids of the declared names. -/
def meaning? (used : List (String × SymbolicSystem)) (names : List (String × SemId))
    (ty : String) : Option SemId :=
  match Codec.builtin? ty with
  | some builtin => builtin.core.semId.toOption
  | none =>
    match Text.cutFirst? '.' ty with
    | some (library, name) => (used.lookup library).bind fun sys => (sys.resolve name).toOption
    | none => names.lookup ty

/-- A declaration **declares** an id: a reference that of its target, a form that of the definition
which it describes, and which stands under this id. -/
structure Declares (means : String → SemId → Prop) (ts : TypeSystem) (name : String) (decl : Value)
    (sid : SemId) : Prop where
  target : ∀ ty, decl = .text ty → means ty sid
  described : ∀ form, Form.ofValue? decl = some form →
    form.check name = .ok () ∧ ∃ d, form.Describes means d ∧ ts.Stands d.toDraft sid

variable (lib : TypeLibrary) (used : List (String × SymbolicSystem))

/-- A name with the id that its declaration in a library declares. -/
structure Establishes (w : Workbench) (name : String) (sid : SemId) : Prop where
  ordinary : Codec.builtin? name = none
  plain : Text.cutFirst? '.' name = none
  declared : ∃ decl, Value.lookup? (.text name) lib.declarations = some decl ∧
    Declares (fun ty sid => meaning? used w.names ty = some sid) w.types name decl sid

/-- The state of a compilation: every compiled name is established, and no name is compiled of which
the declaration is being compiled. -/
structure Progress (chain : List String) (w : Workbench) : Prop where
  established : ∀ e ∈ w.names, lib.Establishes used w e.1 e.2
  pending : ∀ name ∈ chain, w.names.lookup name = none

variable {lib used} {w w' : Workbench} {chain : List String}

/-- What a name means lasts. -/
theorem lasting_meaning (ty : String) : Lasting fun w sid => meaning? used w.names ty = some sid := by
  intro w w' sid hgrows h
  unfold meaning? at h ⊢
  split at h
  · exact h
  · split at h
    · exact h
    · exact hgrows.lookup h

theorem Establishes.mono {name : String} {sid : SemId} (h : lib.Establishes used w name sid)
    (hgrows : w.Grows w') : lib.Establishes used w' name sid := by
  obtain ⟨decl, hdecl, hdeclares⟩ := h.declared
  refine ⟨h.ordinary, h.plain, decl, hdecl, fun ty hty => ?_, fun form hform => ?_⟩
  · exact lasting_meaning ty w w' sid hgrows (hdeclares.target ty hty)
  · obtain ⟨hcheck, d, hd, hstands⟩ := hdeclares.described form hform
    exact ⟨hcheck, d, hd.imp fun ty sid => lasting_meaning ty w w' sid hgrows,
      hstands.mono hgrows.types.isExtension⟩

/-- Insertions keep what is established. -/
theorem stable_progress : Stable (lib.Progress used chain) := by
  intro w ts' h hins
  exact ⟨fun e he => (h.established e he).mono ⟨hins, List.prefix_refl _⟩, h.pending⟩

/-- Compiling a declaration achieves that it declares the id. -/
theorem achieves_compileDeclaration {P : Workbench → Prop} {ref : Value → String → Compiling SemId}
    (hP : Stable P) (href : ∀ v place, Compiling.Achieves P (ref v place)
      fun w sid => ∃ ty, v = .text ty ∧ meaning? used w.names ty = some sid)
    (decl : Value) (name : String) :
    Compiling.Achieves P (compileDeclaration ref decl name) fun w sid =>
      Declares (fun ty sid => meaning? used w.names ty = some sid) w.types name decl sid := by
  have hkept : ∀ v place, Compiling.Achieves P (ref v place) fun _ _ => True :=
    fun v place => (href v place).imp fun _ _ _ _ => trivial
  cases decl with
  | text ty =>
    refine (href (.text ty) name).imp fun w sid _ h => ⟨fun ty' hty => ?_, fun form hform => by cases hform⟩
    obtain ⟨_, ⟨⟩, hmeans⟩ := h
    cases hty
    exact hmeans
  | map entries =>
    cases hform : Form.ofValue? (.map entries) with
    | none =>
      refine (kept_compileForm hP hkept (.map entries) name).imp fun w sid _ _ => ⟨nofun, ?_⟩
      intro form hform'
      rw [hform] at hform'
      cases hform'
    | some form =>
      have hrefs : ∀ ty place, Compiling.Achieves P (ref (.text ty) place)
          fun w sid => meaning? used w.names ty = some sid := fun ty place =>
        (href (.text ty) place).imp fun w sid _ h => by
          obtain ⟨_, ⟨⟩, hmeans⟩ := h
          exact hmeans
      have hcompile := Form.achieves_compile hP lasting_meaning hrefs form name
      rw [← Form.compileForm_eq hform] at hcompile
      refine hcompile.imp fun w sid _ h => ⟨nofun, fun form' hform' => ?_⟩
      rw [hform, Option.some.injEq] at hform'
      exact hform' ▸ h
  | broken t =>
    refine (href (.broken t) name).imp fun w sid _ h => ?_
    obtain ⟨_, hname, -⟩ := h
    cases hname
  | _ => exact Compiling.achieves_fail

section

variable {fuel : Nat} {ty place : String}

/-- The values that are references. -/
theorem referenceName_eq_ok {v : Value} : referenceName place v = .ok ty ↔ v = .text ty := by
  unfold referenceName
  split
  · rw [Except.ok.injEq, Value.text.injEq]
  · exact iff_of_false (fun h => by cases h) (fun h => by cases h)
  · rename_i hother _
    refine iff_of_false ?_ (hother ty)
    split
    · exact misuse_ne_ok
    · exact misuse_ne_ok

theorem compileReference_error {v : Value} {e : Failure} (h : referenceName place v = .error e) :
    compileReference lib used (fuel + 1) chain v place = .given (.error e) := by
  rw [compileReference, compileStep, h]
  rfl

theorem compileReference_builtin {builtin : Codec} (h : Codec.builtin? ty = some builtin) :
    compileReference lib used (fuel + 1) chain (.text ty) place = .grow builtin.derive := by
  rw [compileReference, compileStep]
  simp only [referenceName, Form.given_ok, pure_bind, h]

theorem compileReference_qualified {library name : String} (hordinary : Codec.builtin? ty = none)
    (h : Text.cutFirst? '.' ty = some (library, name)) :
    compileReference lib used (fuel + 1) chain (.text ty) place =
      .given (match used.lookup library with
        | some sys => sys.resolve name
        | none => .error (.strict (.of place (.unknownLibrary library)))) := by
  rw [compileReference, compileStep]
  simp only [referenceName, Form.given_ok, pure_bind, hordinary, h]
  cases used.lookup library with
  | none => rfl
  | some sys => rfl

theorem compileReference_declared (hordinary : Codec.builtin? ty = none)
    (hplain : Text.cutFirst? '.' ty = none) (w : Workbench) :
    compileReference lib used (fuel + 1) chain (.text ty) place w =
      match w.names.lookup ty with
      | some sid => (.ok sid, w)
      | none =>
        match Value.lookup? (.text ty) lib.declarations with
        | none => (.error (.strict (.of place (.unknownType ty))), w)
        | some decl =>
          if chain.contains ty then (.error (.strict (.of place (.cyclicReference ty))), w)
          else (do
            let sid ← .placed ty
              (compileDeclaration (compileReference lib used fuel (ty :: chain)) decl ty)
            .name ty sid
            return sid : Compiling SemId) w := by
  rw [compileReference, compileStep]
  simp only [referenceName, Form.given_ok, pure_bind, hordinary, hplain]
  rw [bind_apply, show (get : Compiling Workbench) w = (.ok w, w) from rfl]
  dsimp only
  cases w.names.lookup ty with
  | some sid => rfl
  | none =>
    cases Value.lookup? (.text ty) lib.declarations with
    | none => rfl
    | some decl =>
      dsimp only
      split <;> rfl

end

/-- A name is **answered** with an id where nothing has to be compiled for it: a builtin whose
definition is there, a name of a used library, or a name that is compiled. -/
inductive Answered (used : List (String × SymbolicSystem)) (w : Workbench) : String → SemId → Prop
  | builtin {ty : String} {c : Codec} {sid : SemId} (h : Codec.builtin? ty = some c)
      (hsid : c.core.semId = .ok sid) (hin : w.types.contains sid = true) : Answered used w ty sid
  | qualified {ty library name : String} {sys : SymbolicSystem} {sid : SemId}
      (hordinary : Codec.builtin? ty = none) (hcut : Text.cutFirst? '.' ty = some (library, name))
      (hused : used.lookup library = some sys) (hresolve : sys.resolve name = .ok sid) :
      Answered used w ty sid
  | compiled {ty : String} {sid : SemId} (hordinary : Codec.builtin? ty = none)
      (hplain : Text.cutFirst? '.' ty = none) (hknown : w.names.lookup ty = some sid) :
      Answered used w ty sid

/-- An answer is what the name means. -/
theorem Answered.meaning {ty : String} {sid : SemId} (h : Answered used w ty sid) :
    meaning? used w.names ty = some sid := by
  cases h with
  | builtin h hsid _ => simp [meaning?, h, hsid, Except.toOption]
  | qualified hordinary hcut hused hresolve =>
    simp [meaning?, hordinary, hcut, hused, hresolve, Except.toOption]
  | compiled hordinary hplain hknown => simp [meaning?, hordinary, hplain, hknown]

theorem lasting_answered (ty : String) : Lasting fun w sid => Answered used w ty sid := by
  intro w w' sid hgrows h
  cases h with
  | builtin h hsid hin => exact .builtin h hsid (hgrows.types.isExtension.contains hin)
  | qualified hordinary hcut hused hresolve => exact .qualified hordinary hcut hused hresolve
  | compiled hordinary hplain hknown => exact .compiled hordinary hplain (hgrows.lookup hknown)

/-- **Induction over what is compiled.** Let `P` hold of a workbench and the declarations that are
being compiled. If insertions keep it, if a name without an id may become one of these, and if a
declaration that is compiled keeps it when the name gets its id, then compiling a reference keeps it
and answers the name. -/
theorem achieves_compileReference_of {P : List String → Workbench → Prop}
    (hstable : ∀ chain, Stable (P chain))
    (hpush : ∀ {chain name w}, P chain w → w.names.lookup name = none → P (name :: chain) w)
    (hname : ∀ {chain name decl ref}, Codec.builtin? name = none → Text.cutFirst? '.' name = none →
      Value.lookup? (.text name) lib.declarations = some decl → name ∉ chain →
      (∀ v place, Compiling.Achieves (P (name :: chain)) (ref v place)
        fun w sid => ∃ ty, v = .text ty ∧ Answered used w ty sid) →
      Compiling.Achieves (P (name :: chain)) (compileDeclaration ref decl name) fun w sid =>
        w.names.lookup name = none ∧ P chain { w with names := w.names ++ [(name, sid)] })
    (fuel : Nat) (chain : List String) (v : Value) (place : String) :
    Compiling.Achieves (P chain) (compileReference lib used fuel chain v place)
      fun w sid => ∃ ty, v = .text ty ∧ Answered used w ty sid := by
  induction fuel generalizing chain v place with
  | zero => exact Compiling.achieves_fail
  | succ fuel ih =>
    intro w hw sid w' hrun
    cases hname' : referenceName place v with
    | error e =>
      rw [compileReference_error hname'] at hrun
      cases hrun
    | ok ty =>
      obtain rfl := referenceName_eq_ok.1 hname'
      cases hbuiltin : Codec.builtin? ty with
      | some builtin =>
        rw [compileReference_builtin hbuiltin] at hrun
        obtain ⟨hgrows, hw', ts, hts⟩ := Compiling.achieves_grow (hstable chain)
          builtin.onlyInserts_derive w hw sid w' hrun
        obtain ⟨d, hderive, hid, -⟩ := Codec.exists_define_of_builtin hbuiltin
        rw [hderive] at hts
        have hstands := stands_of_insert (Growth.insert_eq_ok.1 hts)
        exact ⟨hgrows, hw', ty, rfl, .builtin hbuiltin (hid.trans hstands.named) hstands.held⟩
      | none =>
      cases hcut : Text.cutFirst? '.' ty with
      | some parts =>
        obtain ⟨library, name⟩ := parts
        rw [compileReference_qualified hbuiltin hcut] at hrun
        cases hlookup : used.lookup library with
        | none =>
          rw [hlookup] at hrun
          cases hrun
        | some sys =>
          rw [hlookup] at hrun
          have hresolve : sys.resolve name = .ok sid := congrArg Prod.fst hrun
          obtain rfl : w = w' := congrArg Prod.snd hrun
          exact ⟨.refl w, hw, ty, rfl, .qualified hbuiltin hcut hlookup hresolve⟩
      | none =>
      rw [compileReference_declared hbuiltin hcut] at hrun
      cases hknown : w.names.lookup ty with
      | some known =>
        rw [hknown] at hrun
        cases hrun
        exact ⟨.refl w, hw, ty, rfl, .compiled hbuiltin hcut hknown⟩
      | none =>
      rw [hknown] at hrun
      cases hdecl : Value.lookup? (.text ty) lib.declarations with
      | none =>
        rw [hdecl] at hrun
        cases hrun
      | some decl =>
      rw [hdecl] at hrun
      dsimp only at hrun
      split at hrun
      · cases hrun
      rename_i hnew
      rw [List.contains_iff_mem] at hnew
      -- while its declaration is being compiled, the name is on the chain
      have hdeclaration := (hname hbuiltin hcut hdecl hnew (ih (ty :: chain))).placed ty
      rw [bind_apply] at hrun
      rcases hrun' : Compiling.placed ty (compileDeclaration
        (compileReference lib used fuel (ty :: chain)) decl ty) w with ⟨e | sid', w₁⟩
      · rw [hrun'] at hrun
        cases hrun
      · rw [hrun'] at hrun
        obtain ⟨hgrows, -, hfree, hnamed⟩ := hdeclaration w (hpush hw hknown) sid' w₁ hrun'
        cases hrun
        refine ⟨hgrows.trans ⟨.refl _, List.prefix_append ..⟩, hnamed, ty, rfl,
          .compiled hbuiltin hcut ?_⟩
        rw [List.lookup_append, hfree]
        simp

/-- Compiling a declared name that is not compiled yet establishes it. -/
theorem progress_name {name : String} {sid : SemId} {decl : Value}
    (h : lib.Progress used (name :: chain) w) (hnew : name ∉ chain)
    (hordinary : Codec.builtin? name = none) (hplain : Text.cutFirst? '.' name = none)
    (hdecl : Value.lookup? (.text name) lib.declarations = some decl)
    (hdeclares : Declares (fun ty sid => meaning? used w.names ty = some sid) w.types name decl sid) :
    lib.Progress used chain { w with names := w.names ++ [(name, sid)] } := by
  have hgrows : w.Grows { w with names := w.names ++ [(name, sid)] } :=
    ⟨.refl _, List.prefix_append ..⟩
  have hestablishes : lib.Establishes used w name sid := ⟨hordinary, hplain, decl, hdecl, hdeclares⟩
  refine ⟨?_, ?_⟩
  · intro e he
    rcases List.mem_append.1 he with he | he
    · exact (h.established e he).mono hgrows
    · rw [List.mem_singleton.1 he]
      exact hestablishes.mono hgrows
  · intro n hn
    have hne : n ≠ name := fun heq => hnew (heq ▸ hn)
    rw [List.lookup_append, h.pending n (List.mem_cons_of_mem _ hn), List.lookup_cons,
      beq_false_of_ne hne]
    rfl

/-- Compiling a reference gives what its name means. -/
theorem achieves_compileReference (lib : TypeLibrary) (used : List (String × SymbolicSystem))
    (fuel : Nat) (chain : List String) (v : Value) (place : String) :
    Compiling.Achieves (lib.Progress used chain) (compileReference lib used fuel chain v place)
      fun w sid => ∃ ty, v = .text ty ∧ meaning? used w.names ty = some sid := by
  refine (achieves_compileReference_of (P := lib.Progress used) (fun _ => stable_progress) ?_ ?_ fuel
    chain v place).imp fun w sid _ ⟨ty, hty, h⟩ => ⟨ty, hty, h.meaning⟩
  · exact fun h hfree => ⟨h.established, List.forall_mem_cons.2 ⟨hfree, h.pending⟩⟩
  · intro chain name decl ref hordinary hplain hdecl hnew href w hw sid w' hrun
    have hmeans : ∀ v place, Compiling.Achieves (lib.Progress used (name :: chain)) (ref v place)
        fun w sid => ∃ ty, v = .text ty ∧ meaning? used w.names ty = some sid := fun v place =>
      (href v place).imp fun w sid _ ⟨ty, hty, h⟩ => ⟨ty, hty, h.meaning⟩
    obtain ⟨hgrows, hprogress, hdeclares⟩ :=
      achieves_compileDeclaration stable_progress hmeans decl name w hw sid w' hrun
    exact ⟨hgrows, hprogress, hprogress.pending name (List.mem_cons_self ..),
      progress_name hprogress hnew hordinary hplain hdecl hdeclares⟩

end TypeLibrary

end StrictContract
