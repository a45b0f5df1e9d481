import StrictContract.Proofs.TypeLibrary.Denoting
import StrictContract.Proofs.TypeLibrary.Indexing
import StrictContract.Proofs.TypeLibrary.Naming
import StrictContract.Proofs.TypeLibrary.Strictness

/-! # Misnaming — documents that are accepted and cannot be compiled for a name

A computation of the compiler **blames only** certain texts when all its errors do, whatever the state
is that it starts in. Inserting a definition blames names of it, a form gives its own names to the
definition that it is assembled to, and nothing else looks at names. So of an accepted document no
names are blamed but those that end in a line feed, and a document that compiles has none of them. -/

namespace StrictContract

open TypeDef (identCodec)
open TypeSystem (Growth)

variable {α β σ : Type} {P : String → Prop}

/-! ## Runs -/

/-- A computation **ends with** a property of its result, or in an error that blames only certain
texts. -/
structure EndsWith (P : String → Prop) (Q : α → Prop) (m : ExceptT Failure (StateM σ) α) : Prop where
  blames : ∀ s, BlamesOnly P (m s).1
  yields : ∀ s a, (m s).1 = .ok a → Q a

/-- A computation of which the result does not matter. -/
abbrev RunsBlaming (P : String → Prop) (m : ExceptT Failure (StateM σ) α) : Prop :=
  EndsWith P (fun _ => True) m

namespace EndsWith

variable {Q : α → Prop} {R : β → Prop}

theorem pure {a : α} (h : Q a) : EndsWith P Q (pure a : ExceptT Failure (StateM σ) α) where
  blames _ := failsWithin_ok a
  yields _ _ ha := Except.ok.inj ha ▸ h

/-- What is given, or fails, without a look at the state. -/
theorem lift {x : Except Failure α} (h : BlamesOnly P x) :
    RunsBlaming P (liftM x : ExceptT Failure (StateM σ) α) where
  blames _ := by
    cases x with
    | ok a => exact failsWithin_ok a
    | error f => exact h
  yields _ _ _ := trivial

/-- Nothing runs after a failure. -/
theorem fail_bind {cause : Cause} {f : β → ExceptT Failure (StateM σ) α} (h : ¬ cause.AboutText) :
    EndsWith P Q (liftM (fail cause : Except Failure β) >>= f) where
  blames _ := blamesOnly_fail h
  yields _ _ ha := nomatch ha

theorem bind {m : ExceptT Failure (StateM σ) α} {f : α → ExceptT Failure (StateM σ) β}
    (hm : EndsWith P Q m) (hf : ∀ a, Q a → EndsWith P R (f a)) : EndsWith P R (m >>= f) := by
  have hstep : ∀ s, BlamesOnly P ((m >>= f) s).1 ∧ ∀ b, ((m >>= f) s).1 = .ok b → R b := by
    intro s
    have hblames := hm.blames s
    have hyields := hm.yields s
    rw [bind_apply]
    rcases hrun : m s with ⟨e | a, s'⟩
    · rw [hrun] at hblames
      refine ⟨fun e' he => hblames e' ?_, nofun⟩
      cases he
      rfl
    · rw [hrun] at hyields
      have ha := hf a (hyields a rfl)
      exact ⟨ha.blames s', ha.yields s'⟩
  exact ⟨fun s => (hstep s).1, fun s => (hstep s).2⟩

/-- Each result of a loop is what one of its rounds ends with. -/
theorem mapM {Q : α → β → Prop} {f : α → ExceptT Failure (StateM σ) β} {xs : List α}
    (h : ∀ x ∈ xs, EndsWith P (Q x) (f x)) :
    EndsWith P (fun ys => ∀ y ∈ ys, ∃ x ∈ xs, Q x y) (xs.mapM f) := by
  induction xs with
  | nil => exact EndsWith.pure nofun
  | cons x xs ih =>
    rw [List.forall_mem_cons] at h
    rw [List.mapM_cons]
    refine h.1.bind fun y hy => (ih h.2).bind fun ys hys => EndsWith.pure ?_
    refine List.forall_mem_cons.2 ⟨⟨x, List.mem_cons_self .., hy⟩, fun y hy => ?_⟩
    obtain ⟨x, hx, hxy⟩ := hys y hy
    exact ⟨x, List.mem_cons_of_mem _ hx, hxy⟩

theorem forM {f : α → ExceptT Failure (StateM σ) Unit} {xs : List α}
    (h : ∀ x ∈ xs, RunsBlaming P (f x)) : RunsBlaming P (xs.forM f) := by
  induction xs with
  | nil => exact EndsWith.pure trivial
  | cons x xs ih =>
    rw [List.forall_mem_cons] at h
    exact h.1.bind fun _ _ => ih h.2

end EndsWith

/-! ## Insertions -/

namespace TypeDef

/-- No definition is refused by the rules for a text. -/
theorem blamesOnly_validate (d : TypeDef) : BlamesOnly P d.toDraft.validate := by
  have hunique : ∀ (what : String) (vs seen : List Value),
      BlamesOnly P (Draft.checkUnique what seen vs) := by
    intro what vs
    induction vs with
    | nil => exact fun _ => failsWithin_ok ()
    | cons v vs ih =>
      intro seen
      rw [Draft.checkUnique]
      split
      · exact failsWithin_misuse _
      · split
        · exact blamesOnly_fail not_false
        · exact ih _
  have hsizing : ∀ min max : Nat, BlamesOnly P (Draft.checkSizing (.ofNat min) (.ofNat max)) := by
    intro min max
    rw [Draft.checkSizing, Value.precedes_ofNat]
    cases decide (max < min) with
    | true =>
      rintro e ⟨⟩
      exact StrictError.blamesOnly_of_cause not_false
    | false => exact failsWithin_ok ()
  cases d with
  | primitive width =>
    simp only [toDraft, Definition.mapParts, Draft.validate]
    split
    · rintro e ⟨⟩
      exact StrictError.blamesOnly_of_cause not_false
    · exact failsWithin_ok _
  | unicode | tuple items => exact failsWithin_ok _
  | enumeration members => exact (hunique _ _ _).bind fun _ _ => hunique _ _ _
  | union variants | struct fields => exact hunique _ _ _
  | array item length =>
    have hprecedes : (Value.ofNat length).precedes (.int 1) = .ok (decide (length < 1)) :=
      Value.precedes_ofNat length 1
    simp only [toDraft, Definition.mapParts, Draft.validate, hprecedes]
    cases decide (length < 1) with
    | true =>
      rintro e ⟨⟩
      exact StrictError.blamesOnly_of_cause not_false
    | false => exact failsWithin_ok _
  | list item min max | set item min max | map key value min max => exact hsizing min max

/-- The names of a definition are **fit** when each is written or has a property. -/
def FitNames (P : String → Prop) (d : TypeDef) : Prop :=
  ∀ name ∈ d.names, identCodec.Written (.text name) ∨ P name

/-- Identifiers are fit. -/
theorem fitNames_of_all {d : TypeDef}
    (h : (d.names.all fun name => TextPattern.isIdentifier name.toList) = true) : d.FitNames P :=
  fun name hname => .inl (written_identCodec_iff.2 (List.all_eq_true.1 h name hname))

end TypeDef

theorem TypeSystem.blamesOnly_add (ts : TypeSystem) (sid : SemId) (d : TypeDef) :
    BlamesOnly P (ts.add sid d) := by
  unfold add
  split
  · exact failsWithin_ok _
  · exact blamesOnly_fail not_false

/-- Inserting a definition blames only names of it that are not written. -/
theorem TypeSystem.blamesOnly_insert (ts : TypeSystem) {d : TypeDef} (hd : d.FitNames P) :
    BlamesOnly P (ts.insert d.toDraft) := by
  unfold insert
  refine d.blamesOnly_validate.bind fun _ _ => ?_
  have hid : BlamesOnly P d.toDraft.semId :=
    (TypeDef.blamesOnly_write hd).bind fun _ _ => failsWithin_ok _
  cases ts.missing? d.toDraft with
  | some ref => exact blamesOnly_fail not_false
  | none =>
    refine hid.bind fun sid _ => ?_
    split
    · exact failsWithin_ok _
    · split
      · exact (ts.blamesOnly_add _ _).bind fun _ _ => failsWithin_ok _
      · exact failsWithin_misuse _

namespace Compiling

theorem runsBlaming_given {x : Except Failure α} (h : BlamesOnly P x) : RunsBlaming P (given x) where
  blames _ := h
  yields _ _ _ := trivial

theorem runsBlaming_grow {g : Growth α} (hg : RunsBlaming P g) : RunsBlaming P (grow g) where
  blames w := hg.blames w.types
  yields _ _ _ := trivial

theorem runsBlaming_define {d : TypeDef} (hd : d.FitNames P) : RunsBlaming P (Growth.define d) where
  blames ts := by
    have h := ts.blamesOnly_insert hd
    unfold Growth.define Growth.insert
    split
    · exact failsWithin_ok _
    · rename_i e he
      exact fun e' he' => h e' (by cases he'; exact he)
  yields _ _ _ := trivial

theorem runsBlaming_insert {d : TypeDef} (hd : d.FitNames P) : RunsBlaming P (insert d.toDraft) :=
  runsBlaming_grow (runsBlaming_define hd)

theorem runsBlaming_placed {m : Compiling α} (hm : RunsBlaming P m) (name : String) :
    RunsBlaming P (placed name m) where
  blames w := by
    have hblames := hm.blames w
    unfold placed
    split
    · rename_i e w' hrun
      rw [hrun] at hblames
      rintro _ ⟨⟩
      split
      · exact (hblames e rfl).within name
      · exact hblames e rfl
    · exact hblames
  yields _ _ _ := trivial

end Compiling

/-! ## Forms -/

/-- The definitions of builtins have names that are written. -/
theorem Codec.fitNames_builtin {ty : String} {c : Codec} (h : Codec.builtin? ty = some c) :
    ∃ d : TypeDef, c.derive = Growth.define d ∧ d.FitNames P := by
  unfold Codec.builtin? at h
  split at h <;> cases h
  case h_12 => exact ⟨.bool, rfl, TypeDef.fitNames_of_all (by decide)⟩
  all_goals exact ⟨_, rfl, nofun⟩

namespace Charset

/-- So do those of charsets. -/
theorem fitNames_definition (cs : Charset) : cs.definition.FitNames P := by
  have hnames : cs.definition.names = cs.chars.map charName := by
    rw [definition, TypeDef.names, List.map_map]
    rfl
  unfold TypeDef.FitNames
  rw [hnames]
  exact List.forall_mem_map.2 fun c hc => .inl (written_identCodec_iff.2 (isIdentifier_charName hc))

end Charset

namespace Form

variable {ref : String → String → Compiling SemId}

theorem blamesOnly_check (form : Form) (name : String) : BlamesOnly P (form.check name) := by
  have hsizing : ∀ min max : Nat, BlamesOnly P (Draft.checkSizing (.ofNat min) (.ofNat max)) :=
    fun min max => TypeDef.blamesOnly_validate (.list (Id.ofContent .sem []) min max)
  cases form with
  | ascii first rest min max =>
    refine (hsizing min max).bind fun _ _ => ?_
    split
    · split
      · rintro e ⟨⟩
        exact (StrictError.blamesOnly_of_cause (e := ⟨.emptySplitString, []⟩) nofun).within name
      · exact failsWithin_ok _
    · exact failsWithin_ok _
  | _ => exact failsWithin_ok _

/-- The names of a form are **fit** when each is written or has a property. -/
def FitNames (P : String → Prop) (form : Form) : Prop :=
  ∀ name ∈ form.names, identCodec.Written (.text name) ∨ P name

/-- A form gives no other names than its own to the definition that it is assembled to. -/
theorem endsWith_assemble (href : ∀ ty place, RunsBlaming P (ref ty place)) {form : Form}
    (hform : form.FitNames P) (name : String) :
    EndsWith P (TypeDef.FitNames P)
      (form.assemble ref (fun d => Compiling.insert d.toDraft) name) := by
  cases form with
  | primitive width | unicode => exact .pure nofun
  | enumeration members =>
    refine .pure fun n hn => hform n ?_
    exact ((List.mergeSort_perm members _).map _).mem_iff.1 hn
  | union variants =>
    refine (EndsWith.mapM fun v _ => (href v.2.2 name).bind fun sid _ =>
      EndsWith.pure (Q := fun row : Nat × String × SemId => row.2.1 = v.1) rfl).bind fun rows hrows => ?_
    refine .pure fun n hn => hform n ?_
    obtain ⟨row, hrow, rfl⟩ := List.mem_map.1 hn
    obtain ⟨v, hv, hname⟩ := hrows row (mem_of_mem_lastByKey hrow)
    rw [hname]
    exact List.mem_map_of_mem (List.mem_mergeSort.1 hv)
  | option inner =>
    have hnames : (["none", "some"].all fun name => TextPattern.isIdentifier name.toList) = true := by
      decide
    exact (href "Unit" name).bind fun none _ => (href inner name).bind fun some _ =>
      .pure (TypeDef.fitNames_of_all hnames)
  | tuple items => exact (EndsWith.mapM fun item _ => href item name).bind fun _ _ => .pure nofun
  | struct fields =>
    refine (EndsWith.mapM fun f _ => (href f.2 _).bind fun sid _ =>
      EndsWith.pure (Q := fun k : String × SemId => k.1 = f.1) rfl).bind fun known hknown => ?_
    refine .pure fun n hn => hform n ?_
    obtain ⟨k, hk, rfl⟩ := List.mem_map.1 hn
    obtain ⟨f, hf, hname⟩ := hknown k hk
    rw [hname]
    exact List.mem_map_of_mem hf
  | array item length => exact (href item name).bind fun _ _ => .pure nofun
  | list item min max | set item min max => exact (href item name).bind fun _ _ => .pure nofun
  | ascii first rest min max =>
    have hnames : (["first", "rest"].all fun name => TextPattern.isIdentifier name.toList) = true := by
      decide
    refine (Compiling.runsBlaming_insert rest.fitNames_definition).bind fun restId _ => ?_
    split
    · refine (Compiling.runsBlaming_insert first.fitNames_definition).bind fun firstId _ => ?_
      exact (Compiling.runsBlaming_insert (TypeDef.fitNames_of_all rfl)).bind fun tailId _ =>
        .pure (TypeDef.fitNames_of_all hnames)
    · exact .pure nofun
  | map key value min max =>
    exact (href key name).bind fun _ _ => (href value name).bind fun _ _ => .pure nofun

theorem runsBlaming_compile (href : ∀ ty place, RunsBlaming P (ref ty place)) {form : Form}
    (hform : form.FitNames P) (name : String) : RunsBlaming P (form.compile ref name) :=
  (Compiling.runsBlaming_given (form.blamesOnly_check name)).bind fun _ _ =>
    (endsWith_assemble href hform name).bind fun _ hd => Compiling.runsBlaming_insert hd

/-- A form with different tags gives all its names to the definition that it describes. -/
theorem Describes.mem_names {means : String → SemId → Prop} {form : Form} {d : TypeDef}
    (h : form.Describes means d) (htags : form.TagsDiffer) {name : String} (hname : name ∈ form.names) :
    name ∈ d.names := by
  have hmap : ∀ {α β : Type} {R : α → β → Prop} {f : α → String} {g : β → String} {xs : List α}
      {ys : List β}, (∀ x y, R x y → g y = f x) → List.Forall₂ R xs ys → ys.map g = xs.map f := by
    intro α β R f g xs ys hR h
    rw [← List.forall₂_eq_eq_eq, List.forall₂_map_left_iff, List.forall₂_map_right_iff]
    exact h.flip.imp fun _ _ => hR _ _
  cases form with
  | enumeration members =>
    cases h
    exact ((List.mergeSort_perm members _).map _).mem_iff.2 hname
  | union variants =>
    obtain ⟨vs, rows, hvs, rfl, hrows⟩ := h.whole_iff.2 htags
    have hnames := (hvs.map Prod.fst).mem_iff.2 hname
    rwa [← hmap (g := fun row => row.2.1) (fun _ _ hrow => hrow.2.1) hrows] at hnames
  | struct fields =>
    cases h with
    | struct hfields => rwa [names, ← hmap (fun _ _ hf => hf.1) hfields] at hname
  | _ => cases hname

end Form

/-! ## Libraries -/

namespace TypeLibrary

variable {lib : TypeLibrary} {used : List (String × SymbolicSystem)} {sys : SymbolicSystem}

/-- The names that the declarations of a library give. -/
def givenNames (lib : TypeLibrary) : List String :=
  lib.declarations.flatMap fun e => ((Form.ofValue? e.2).map Form.names).getD []

theorem mem_givenNames {e : Value × Value} (he : e ∈ lib.declarations) {form : Form}
    (hform : Form.ofValue? e.2 = some form) {name : String} (hname : name ∈ form.names) :
    name ∈ lib.givenNames :=
  List.mem_flatMap.2 ⟨e, he, by rwa [hform]⟩

/-- The names of a library are **fit** when each is written or has a property. -/
def FitNames (P : String → Prop) (lib : TypeLibrary) : Prop :=
  ∀ name ∈ lib.givenNames, identCodec.Written (.text name) ∨ P name

theorem runsBlaming_compileDeclaration {ref : Value → String → Compiling SemId}
    (href : ∀ ty place, RunsBlaming P (ref (.text ty) place)) {decl : Value}
    (hdecl : (∃ s, decl = .text s) ∨ ∃ form, Form.ofValue? decl = some form ∧ form.FitNames P)
    (name : String) : RunsBlaming P (compileDeclaration ref decl name) := by
  rcases hdecl with ⟨s, rfl⟩ | ⟨form, hform, hnames⟩
  · exact href s name
  · cases decl with
    | map entries =>
      rw [compileDeclaration, Form.compileForm_eq hform]
      exact Form.runsBlaming_compile href hnames name
    | _ => cases hform

/-- Names of other libraries are not found for another reason than a text. -/
theorem blamesOnly_resolve (sys : SymbolicSystem) (name : String) : BlamesOnly P (sys.resolve name) := by
  have hlocal : ∀ name, BlamesOnly P (sys.resolveLocal name) := by
    intro name
    unfold SymbolicSystem.resolveLocal
    split
    · exact failsWithin_ok _
    · exact blamesOnly_fail not_false
  unfold SymbolicSystem.resolve
  split
  · split
    · exact hlocal _
    · exact blamesOnly_fail not_false
  · exact hlocal _

/-- Compiling a reference of a readable library blames only names that it gives. -/
theorem Readable.runsBlaming_compileReference (h : lib.Readable) (hnames : lib.FitNames P) (fuel : Nat)
    (chain : List String) (ty place : String) :
    RunsBlaming P (compileReference lib used fuel chain (.text ty) place) := by
  have hplace : ∀ {place : String} {cause : Cause}, ¬ cause.AboutText →
      BlamesOnly P (.error (.strict (.of place cause)) : Except Failure SemId) := by
    rintro place cause hcause _ ⟨⟩
    exact (StrictError.blamesOnly_of_cause (e := ⟨cause, []⟩) hcause).within place
  -- the declaration of a name is compiled with less fuel and one more name on the chain
  induction fuel generalizing chain ty place with
  | zero => exact Compiling.runsBlaming_given (hplace nofun)
  | succ fuel ih =>
    cases hbuiltin : Codec.builtin? ty with
    | some builtin =>
      obtain ⟨d, hderive, hd⟩ := Codec.fitNames_builtin hbuiltin
      rw [compileReference_builtin hbuiltin, hderive]
      exact Compiling.runsBlaming_insert hd
    | none =>
    cases hcut : Text.cutFirst? '.' ty with
    | some parts =>
      rw [compileReference_qualified hbuiltin hcut]
      refine Compiling.runsBlaming_given ?_
      split
      · exact blamesOnly_resolve _ _
      · exact hplace nofun
    | none =>
    refine ⟨fun w => ?_, fun _ _ _ => trivial⟩
    rw [compileReference_declared hbuiltin hcut]
    split
    · exact failsWithin_ok _
    · split
      · exact hplace nofun
      · rename_i decl hdecl
        split
        · exact hplace nofun
        · obtain ⟨k, hk, -⟩ := Value.exists_mem_of_lookup? hdecl
          have hfit : (∃ s, decl = .text s) ∨
              ∃ form, Form.ofValue? decl = some form ∧ form.FitNames P :=
            (h _ hk).2.imp_right fun ⟨form, hform⟩ =>
              ⟨form, hform, fun name hname => hnames name (mem_givenNames hk hform hname)⟩
          have hdeclaration := runsBlaming_compileDeclaration (ih (ty :: chain)) hfit ty
          have hnamed : ∀ sid, RunsBlaming P (Compiling.name ty sid) :=
            fun _ => ⟨fun _ => failsWithin_ok (), fun _ _ _ => trivial⟩
          exact ((Compiling.runsBlaming_placed hdeclaration ty).bind fun sid _ =>
            (hnamed sid).bind fun _ _ => EndsWith.pure trivial).blames w

/-- Adding the types of the used libraries blames nothing. -/
theorem runsBlaming_mergeUsed (used : List (String × SymbolicSystem)) :
    RunsBlaming P (mergeUsed used) := by
  have hentries : ∀ (entries : List (SemId × TypeDef)) (added : Nat),
      RunsBlaming P (Growth.mergeEntries entries added) := by
    intro entries added
    refine ⟨fun ts => ?_, fun _ _ _ => trivial⟩
    induction entries generalizing added ts with
    | nil => exact failsWithin_ok _
    | cons e entries ih =>
      rw [Growth.mergeEntries]
      dsimp only
      split
      · exact ih added ts
      · split
        · exact ih _ _
        · rename_i f hf
          exact fun g hg => ts.blamesOnly_add _ _ g (by cases hg; exact hf)
  induction used with
  | nil => exact .pure trivial
  | cons e used ih => exact (Compiling.runsBlaming_grow (hentries _ _)).bind fun _ _ => ih

/-- Compiling a readable library blames only names that it gives. -/
theorem Readable.runsBlaming_compile (h : lib.Readable) (hnames : lib.FitNames P) :
    RunsBlaming P (lib.compile used) := by
  have hlog : ∀ events, RunsBlaming P (Logged.log events) :=
    fun _ => ⟨fun _ => failsWithin_ok (), fun _ _ _ => trivial⟩
  have hall : RunsBlaming P (compileAllDeclarations lib used) := by
    refine EndsWith.forM fun e he => ?_
    obtain ⟨k, v⟩ := e
    obtain ⟨name, rfl⟩ := (h _ he).1
    exact (h.runsBlaming_compileReference hnames _ _ _ _).bind fun _ _ => .pure trivial
  unfold compile
  cases lib.uses.find? fun name => (used.lookup name).isNone with
  | some missing => exact EndsWith.fail_bind nofun
  | none =>
    have hmerged := (runsBlaming_mergeUsed (P := P) used).blames ⟨.empty, []⟩
    generalize mergeUsed used ⟨.empty, []⟩ = start at hmerged
    obtain ⟨merged, bench⟩ := start
    have hdone := hall.blames bench
    generalize hrun : compileAllDeclarations lib used bench = run at hdone
    obtain ⟨r, done⟩ := run
    dsimp only
    rw [hrun]
    exact (EndsWith.lift hmerged).bind fun _ _ => (hlog _).bind fun _ _ =>
      (EndsWith.lift hdone).bind fun _ _ => (hlog _).bind fun _ _ => .pure trivial

/-- The names that an accepted document gives are identifiers, apart from a line feed. -/
theorem accepts_of_mem_givenNames {document : Value} (hlib : ofDocument document = .ok lib)
    {name : String} (hname : name ∈ lib.givenNames) :
    TextPattern.identifier.accepts name = true := by
  obtain ⟨e, he, hname⟩ := List.mem_flatMap.1 hname
  cases hform : Form.ofValue? e.2 with
  | none =>
    rw [hform] at hname
    cases hname
  | some form =>
    rw [hform] at hname
    exact Form.accepts_of_mem_names ((declarations_of_ofDocument hlib).2 e he).2 hform hname

/-- A local name that compiles has a definition of which all names are written. -/
theorem written_of_compile {written : List Event} (h : (lib.compile used written).1 = .ok sys)
    {ty : String} {decl : Value} {form : Form} (hlocal : IsLocal ty)
    (hdecl : Value.lookup? (.text ty) lib.declarations = some decl)
    (hform : Form.ofValue? decl = some form) (htags : form.TagsDiffer) {name : String}
    (hname : name ∈ form.names) : identCodec.Written (.text name) := by
  obtain ⟨sid, hsid⟩ := (finished_of_compile h).exists_lookup hlocal hdecl
  obtain ⟨-, -, decl', hdecl', hdeclares⟩ :=
    (compiled_of_compile h).established _ (mem_of_lookup hsid)
  obtain rfl := Option.some.inj (hdecl.symm.trans hdecl')
  obtain ⟨-, d, hd, hstands⟩ := hdeclares.described form hform
  -- the definition has an id, so it has an encoding
  obtain ⟨p, hp, -⟩ := bind_eq_ok.1 hstands.named
  exact TypeDef.written_of_mem_names ⟨p, hp⟩ (hd.mem_names htags hname)

/-- The form of declarations accepts the names that are written, and those with a line feed behind
them, which are not; a text with a surrogate is neither accepted nor written. So an accepted document
gives no others; when it fails to compile for a text, it is for such a name of its own with a line feed,
and when it compiles, it has no such name. -/
theorem names_agree_up_to_lineFeed (p : NamePosition) (s : String) (place : Place)
    (document : Value) (lib : TypeLibrary) :
    (DocumentSchema.declaration.errors place (p.declare (.text s)) = [] ↔
      identCodec.Written (.text s) ∨ ∃ t, s = t ++ "\n" ∧ identCodec.Written (.text t)) ∧
    ¬ identCodec.Written (.text (s ++ "\n")) ∧
    (∀ t, DocumentSchema.declaration.errors place (p.declare (.broken t)) ≠ [] ∧
      ¬ identCodec.Written (.broken t)) ∧
    (document.isDocument = true → ofDocument document = .ok lib →
      (∀ name ∈ lib.givenNames,
        identCodec.Written (.text name) ∨ ∃ t, name = t ++ "\n" ∧ identCodec.Written (.text t)) ∧
      (∀ used written e blamed, (lib.compile used written).1 = .error (.strict e) →
        e.Blames blamed →
        ∃ t, t ++ "\n" ∈ lib.givenNames ∧ identCodec.Written (.text t) ∧ e.Blames (t ++ "\n")) ∧
      ∀ used written sys, (lib.compile used written).1 = .ok sys → ∀ ty decl form, IsLocal ty →
        Value.lookup? (.text ty) lib.declarations = some decl → Form.ofValue? decl = some form →
          form.TagsDiffer → ∀ name ∈ form.names, identCodec.Written (.text name)) := by
  refine ⟨?_, not_written_lineFeed s, fun t => ⟨?_, not_written_broken t⟩, fun hdocument hlib => ?_⟩
  · rw [← List.isEmpty_iff, DocumentSchema.isEmpty_errors_declare]
    exact accepts_identifier_iff
  · rw [Ne, ← List.isEmpty_iff, DocumentSchema.isEmpty_errors_declare]
    exact Bool.false_ne_true
  · have hgiven : ∀ name ∈ lib.givenNames,
        identCodec.Written (.text name) ∨ ∃ t, name = t ++ "\n" ∧ identCodec.Written (.text t) :=
      fun name hname => accepts_identifier_iff.1 (accepts_of_mem_givenNames hlib hname)
    refine ⟨hgiven, fun used written e blamed hrun hblamed => ?_,
      fun used written sys hrun ty decl form hlocal hdecl hform htags name hname =>
        written_of_compile hrun hlocal hdecl hform htags hname⟩
    have hfit : lib.FitNames fun name => name ∈ lib.givenNames ∧
        ∃ t, name = t ++ "\n" ∧ identCodec.Written (.text t) :=
      fun name hname => (hgiven name hname).imp_right fun h => ⟨hname, h⟩
    obtain ⟨_, ⟨hname, t, rfl, ht⟩, hblames⟩ :=
      ((readable_of_ofDocument hdocument hlib).runsBlaming_compile hfit).blames written e hrun blamed
        hblamed
    exact ⟨t, hname, ht, hblames⟩

/-- The names of an enumeration with another name are written. -/
theorem names_agree_up_to_lineFeed_colours : ∃ lib,
    (documentOf "Colours" colours).isDocument = true ∧
    ofDocument (documentOf "Colours" colours) = .ok lib ∧ lib.givenNames = ["red", "blue"] ∧
    ∀ name ∈ lib.givenNames,
      identCodec.Written (.text name) ∨ ∃ t, name = t ++ "\n" ∧ identCodec.Written (.text t) := by
  have hlib := ofDocument_documentOf check_colours
  exact ⟨_, rfl, hlib, by decide +kernel,
    ((names_agree_up_to_lineFeed .member "red" [] _ _).2.2.2 rfl hlib).1⟩

/-- An enumeration of which the only member has a line feed behind its name. -/
def dangling : List (String × Value) :=
  [("Only", NamePosition.member.declare (.text "one\n"))]

/-- The error of compiling it, at the name of the member. -/
def danglingError : StrictError :=
  ⟨.charNotAllowed (Text.quoted "\n") 3 "AlphaNumLodash", ["enum", "variants", "[0]", "name"]⟩

/-- The document with this enumeration is accepted, and fails to compile for the name of the member. -/
theorem names_disagree_at_lineFeed : ∃ lib, (documentOf "Dangling" dangling).isDocument = true ∧
    DocumentSchema.typeLibrary.check (documentOf "Dangling" dangling) = .ok [] ∧
    ofDocument (documentOf "Dangling" dangling) = .ok lib ∧
    TextPattern.identifier.accepts "one\n" = true ∧ ¬ identCodec.Written (.text "one\n") ∧
    (lib.compile [] []).1 = .error (.strict danglingError) ∧ danglingError.Blames "one\n" := by
  have hcheck : DocumentSchema.typeLibrary.check (documentOf "Dangling" dangling) = .ok [] :=
    DocumentSchema.check_eq_nil.2 (List.isEmpty_iff.1 (by decide +kernel))
  have hrun : (compile ⟨"Dangling", Declaration.named dangling, [], ""⟩ [] []).1 =
      .error (.strict danglingError) := by with_unfolding_all rfl
  have hblames : danglingError.Blames "one\n" := by with_unfolding_all rfl
  exact ⟨_, rfl, hcheck, ofDocument_documentOf hcheck, by decide, not_written_lineFeed "one", hrun,
    hblames⟩

end TypeLibrary

end StrictContract
