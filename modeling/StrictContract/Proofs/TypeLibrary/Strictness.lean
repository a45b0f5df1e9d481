import StrictContract.Proofs.Codec.Answering
import StrictContract.Proofs.TypeLibrary.Document
import StrictContract.Proofs.TypeLibrary.Transcribing

/-! # Strict compilation — documents compile, or fail with an error of the library

A computation **runs strictly** if it fails with strict errors only, in whatever state it starts. A
definition with texts as names and natural numbers is inserted strictly, and so is the definition that
a form is assembled to when references are compiled strictly. The declarations of a document are
references or have forms, so all of it compiles strictly, and so do several documents together. -/

namespace StrictContract

open TypeSystem (Growth)

variable {α β σ : Type}

/-! ## Strict runs -/

/-- What fails with a strict error is strict. -/
theorem isStrict_error (e : StrictError) : IsStrict (.error (.strict e) : Except Failure α) := by
  rintro _ ⟨⟩
  exact ⟨e, rfl⟩

/-- A computation with a state that **runs strictly**: it fails with strict errors only. -/
def RunsStrictly (m : ExceptT Failure (StateM σ) α) : Prop := ∀ s, IsStrict (m s).1

theorem runsStrictly_pure (a : α) : RunsStrictly (pure a : ExceptT Failure (StateM σ) α) :=
  fun _ => isStrict_ok a

/-- What is given, or fails, without a look at the state. -/
theorem runsStrictly_lift {x : Except Failure α} (h : IsStrict x) :
    RunsStrictly (liftM x : ExceptT Failure (StateM σ) α) := by
  cases x with
  | ok a => exact fun _ => isStrict_ok a
  | error e => exact fun _ f hf => h f hf

/-- Nothing runs after a failure. -/
theorem runsStrictly_fail_bind {cause : Cause} {f : β → ExceptT Failure (StateM σ) α} :
    RunsStrictly (liftM (fail cause : Except Failure β) >>= f) := by
  intro s
  rw [bind_apply]
  exact isStrict_fail cause

theorem RunsStrictly.bind {m : ExceptT Failure (StateM σ) α} {f : α → ExceptT Failure (StateM σ) β}
    (hm : RunsStrictly m) (hf : ∀ a, RunsStrictly (f a)) : RunsStrictly (m >>= f) := by
  intro s
  have h := hm s
  rw [bind_apply]
  rcases hrun : m s with ⟨e | a, s'⟩
  · rw [hrun] at h
    exact fun f hf => h f (by cases hf; rfl)
  · exact hf a s'

theorem runsStrictly_mapM {f : α → ExceptT Failure (StateM σ) β} {xs : List α}
    (h : ∀ x ∈ xs, RunsStrictly (f x)) : RunsStrictly (xs.mapM f) := by
  induction xs with
  | nil => exact runsStrictly_pure []
  | cons x xs ih =>
    rw [List.forall_mem_cons] at h
    rw [List.mapM_cons]
    exact h.1.bind fun _ => (ih h.2).bind fun _ => runsStrictly_pure _

theorem runsStrictly_forM {f : α → ExceptT Failure (StateM σ) Unit} {xs : List α}
    (h : ∀ x ∈ xs, RunsStrictly (f x)) : RunsStrictly (xs.forM f) := by
  induction xs with
  | nil => exact runsStrictly_pure ()
  | cons x xs ih =>
    rw [List.forall_mem_cons] at h
    exact h.1.bind fun _ => ih h.2

theorem runsStrictly_foldlM {f : β → α → ExceptT Failure (StateM σ) β} {xs : List α}
    (h : ∀ b, ∀ x ∈ xs, RunsStrictly (f b x)) (b : β) : RunsStrictly (xs.foldlM f b) := by
  induction xs generalizing b with
  | nil => exact runsStrictly_pure b
  | cons x xs ih =>
    rw [List.foldlM_cons]
    exact (h b x (List.mem_cons_self ..)).bind fun b => ih (fun b y hy =>
      h b y (List.mem_cons_of_mem _ hy)) b

theorem runsStrictly_log (events : List Event) : RunsStrictly (Logged.log events) :=
  fun _ => isStrict_ok ()

/-! ## Definitions -/

namespace Draft

/-- A check for repetitions among values that can be compared is strict. -/
theorem isStrict_checkUnique {what : String} {f : α → Value} (hkey : ∀ a, (f a).isKey = true)
    (items : List α) (seen : List Value) : IsStrict (checkUnique what seen (items.map f)) := by
  induction items generalizing seen with
  | nil => exact isStrict_ok _
  | cons a items ih =>
    rw [List.map_cons, checkUnique, hkey]
    simp only [Bool.not_true, Bool.false_eq_true, if_false]
    split
    · exact isStrict_fail _
    · exact ih _

theorem isStrict_checkSizing (min max : Nat) :
    IsStrict (checkSizing (.ofNat min) (.ofNat max)) := by
  rw [checkSizing, Value.precedes_ofNat]
  cases decide (max < min) with
  | true => exact isStrict_error _
  | false => exact isStrict_ok _

end Draft

namespace TypeDef

open Codec

/-- The codec of definitions answers every definition. -/
theorem answers_codec (d : TypeDef) : codec.Answers d.toValue := by
  have hnumber : ∀ (size n : Nat), (Codec.uint size).Answers (.ofNat n) := fun size n =>
    answers_uint (ordinary_int _) _
  have hname : ∀ v, identCodec.Answers v := answers_ascii _ _ _ _
  have hid : ∀ sid, (Codec.id .sem).Answers (Draft.idValue sid) := fun sid => answers_id _ _
  have hsizing : ∀ min max : Nat, sizingCodec.Answers (Draft.sizingValue (.ofNat min) (.ofNat max)) :=
    fun min max => answers_record (by decide) ⟨rfl, hnumber _ _, rfl, hnumber _ _, trivial⟩
  refine answers_union ?_
  -- of the ten variants the one of the kind of the definition is left
  cases d <;>
    simp only [List.forall_mem_cons, accepts, toDraft, Definition.mapParts, Definition.kindName,
      beq_iff_eq, String.reduceEq, false_implies, true_implies, true_and, List.not_mem_nil,
      implies_true, and_true] <;>
    refine answers_record (by decide) ?_
  case enumeration members =>
    refine ⟨rfl, answers_list (List.forall_mem_map.2 (List.forall_mem_map.2 fun m _ => ?_)), trivial⟩
    exact answers_record (by decide) ⟨rfl, hname _, rfl, hnumber _ _, trivial⟩
  case union variants =>
    refine ⟨rfl, answers_map (List.forall_mem_map.2 (List.forall_mem_map.2 fun x _ => ?_)), trivial⟩
    exact ⟨hnumber _ _, hasLabel_int _, answers_record (by decide) ⟨rfl, hname _, rfl, hid _, trivial⟩⟩
  case tuple items =>
    exact ⟨rfl, answers_list (List.forall_mem_map.2 fun sid _ => hid sid), trivial⟩
  case struct fields =>
    refine ⟨rfl, answers_list (List.forall_mem_map.2 (List.forall_mem_map.2 fun f _ => ?_)), trivial⟩
    exact answers_record (by decide) ⟨rfl, hname _, rfl, hid _, trivial⟩
  all_goals simp [AnswersFields, hnumber, hid, hsizing]

/-- Definitions are checked strictly. -/
theorem isStrict_validate (d : TypeDef) : IsStrict d.toDraft.validate := by
  cases d with
  | primitive width =>
    simp only [toDraft, Definition.mapParts, Draft.validate]
    split
    · exact isStrict_error _
    · exact isStrict_ok _
  | unicode | tuple items => exact isStrict_ok _
  | enumeration members =>
    simp only [toDraft, Definition.mapParts, Draft.validate, List.map_map]
    exact (Draft.isStrict_checkUnique (fun _ => rfl) _ _).bind fun _ _ =>
      Draft.isStrict_checkUnique (fun _ => rfl) _ _
  | union variants | struct fields =>
    simp only [toDraft, Definition.mapParts, Draft.validate, List.map_map]
    exact Draft.isStrict_checkUnique (fun _ => rfl) _ _
  | array item length =>
    have hprecedes : (Value.ofNat length).precedes (.int 1) = .ok (decide (length < 1)) :=
      Value.precedes_ofNat length 1
    simp only [toDraft, Definition.mapParts, Draft.validate, hprecedes]
    cases decide (length < 1) with
    | true => exact isStrict_error _
    | false => exact isStrict_ok _
  | list item min max | set item min max | map key value min max =>
    exact Draft.isStrict_checkSizing _ _

theorem isStrict_semId (d : TypeDef) : IsStrict d.toDraft.semId :=
  (answers_codec d).bind fun _ _ => isStrict_ok _

end TypeDef

theorem TypeSystem.isStrict_add (ts : TypeSystem) (sid : SemId) (d : TypeDef) :
    IsStrict (ts.add sid d) := by
  unfold add
  split
  · exact isStrict_ok _
  · exact isStrict_fail _

/-- Definitions are inserted strictly. -/
theorem TypeSystem.isStrict_insert (ts : TypeSystem) (d : TypeDef) : IsStrict (ts.insert d.toDraft) := by
  obtain ⟨known, hknown⟩ := Draft.exists_definition?_toDraft d
  have hinsert : IsStrict (do
      let sid ← d.toDraft.semId
      if ts.contains sid then return (sid, ts)
      return (sid, ← ts.add sid known)) := by
    refine d.isStrict_semId.bind fun sid _ => ?_
    split
    · exact isStrict_ok _
    · exact (ts.isStrict_add sid known).bind fun _ _ => isStrict_ok _
  unfold insert
  refine d.isStrict_validate.bind fun _ _ => ?_
  cases ts.missing? d.toDraft with
  | some ref => exact isStrict_fail _
  | none =>
    simp only [hknown]
    exact hinsert

namespace Compiling

theorem runsStrictly_grow {g : Growth α} (hg : RunsStrictly g) : RunsStrictly (grow g) :=
  fun w => hg w.types

theorem runsStrictly_given {x : Except Failure α} (h : IsStrict x) : RunsStrictly (given x) :=
  fun _ => h

theorem runsStrictly_define (d : TypeDef) : RunsStrictly (Growth.define d) := by
  intro ts
  have h := ts.isStrict_insert d
  unfold Growth.define Growth.insert
  split
  · exact isStrict_ok _
  · rename_i e he
    exact fun f hf => h f (by cases hf; exact he)

theorem runsStrictly_insert (d : TypeDef) : RunsStrictly (insert d.toDraft) :=
  runsStrictly_grow (runsStrictly_define d)

theorem runsStrictly_placed {m : Compiling α} (hm : RunsStrictly m) (name : String) :
    RunsStrictly (placed name m) := by
  intro w
  unfold placed
  split
  · exact isStrict_error _
  · exact hm w

end Compiling

/-! ## Forms -/

namespace Form

variable {ref : String → String → Compiling SemId}

theorem isStrict_check (form : Form) (name : String) : IsStrict (form.check name) := by
  cases form with
  | ascii first rest min max =>
    refine (Draft.isStrict_checkSizing min max).bind fun _ _ => ?_
    split
    · split
      · exact isStrict_error _
      · exact isStrict_ok _
    · exact isStrict_ok _
  | _ => exact isStrict_ok _

/-- A form is assembled strictly when its references are compiled strictly. -/
theorem runsStrictly_assemble (href : ∀ ty place, RunsStrictly (ref ty place)) (form : Form)
    (name : String) :
    RunsStrictly (form.assemble ref (fun d => Compiling.insert d.toDraft) name) := by
  have hdefine : ∀ d : TypeDef, RunsStrictly (Compiling.insert d.toDraft) :=
    Compiling.runsStrictly_insert
  cases form with
  | primitive width | unicode | enumeration members => exact runsStrictly_pure _
  | union variants =>
    refine (runsStrictly_mapM fun v _ => ?_).bind fun _ => runsStrictly_pure _
    exact (href v.2.2 name).bind fun _ => runsStrictly_pure _
  | option inner =>
    exact (href "Unit" name).bind fun _ => (href inner name).bind fun _ => runsStrictly_pure _
  | tuple items =>
    exact (runsStrictly_mapM fun item _ => href item name).bind fun _ => runsStrictly_pure _
  | struct fields =>
    refine (runsStrictly_mapM fun f _ => ?_).bind fun _ => runsStrictly_pure _
    exact (href f.2 _).bind fun _ => runsStrictly_pure _
  | array item length => exact (href item name).bind fun _ => runsStrictly_pure _
  | list item min max | set item min max =>
    exact (href item name).bind fun _ => runsStrictly_pure _
  | ascii first rest min max =>
    refine (hdefine rest.definition).bind fun restId => ?_
    split
    · exact (hdefine first.definition).bind fun _ => (hdefine _).bind fun _ => runsStrictly_pure _
    · exact runsStrictly_pure _
  | map key value min max =>
    exact (href key name).bind fun _ => (href value name).bind fun _ => runsStrictly_pure _

/-- A form is compiled strictly when its references are. -/
theorem runsStrictly_compile (href : ∀ ty place, RunsStrictly (ref ty place)) (form : Form)
    (name : String) : RunsStrictly (form.compile ref name) :=
  (Compiling.runsStrictly_given (form.isStrict_check name)).bind fun _ =>
    (runsStrictly_assemble href form name).bind fun d => Compiling.runsStrictly_insert d

end Form

/-! ## Libraries -/

namespace SymbolicSystem

variable {sys : SymbolicSystem}

theorem isStrict_resolve (sys : SymbolicSystem) (name : String) : IsStrict (sys.resolve name) := by
  have hlocal : ∀ name, IsStrict (sys.resolveLocal name) := by
    intro name
    unfold resolveLocal
    split
    · exact isStrict_ok _
    · exact isStrict_fail _
  unfold resolve
  split
  · split
    · exact hlocal _
    · exact isStrict_fail _
  · exact hlocal _

end SymbolicSystem

namespace TypeLibrary

variable {lib : TypeLibrary} {used : List (String × SymbolicSystem)}

/-- A declaration that is a reference or has a form is compiled strictly when references are. -/
theorem runsStrictly_compileDeclaration {ref : Value → String → Compiling SemId}
    (href : ∀ ty place, RunsStrictly (ref (.text ty) place)) {decl : Value}
    (hdecl : (∃ s, decl = .text s) ∨ ∃ form, Form.ofValue? decl = some form) (name : String) :
    RunsStrictly (compileDeclaration ref decl name) := by
  rcases hdecl with ⟨s, rfl⟩ | ⟨form, hform⟩
  · exact href s name
  · cases decl with
    | map entries =>
      rw [compileDeclaration, Form.compileForm_eq hform]
      exact form.runsStrictly_compile href name
    | _ => cases hform

/-- The references of a readable library are compiled strictly. -/
theorem Readable.runsStrictly_compileReference (h : lib.Readable) (fuel : Nat) (chain : List String)
    (ty place : String) : RunsStrictly (compileReference lib used fuel chain (.text ty) place) := by
  -- the declaration of a name is compiled with less fuel and one more name on the chain
  induction fuel generalizing chain ty place with
  | zero => exact Compiling.runsStrictly_given (isStrict_error _)
  | succ fuel ih =>
    cases hbuiltin : Codec.builtin? ty with
    | some builtin =>
      obtain ⟨d, hderive, -⟩ := Codec.exists_define_of_builtin hbuiltin
      rw [compileReference_builtin hbuiltin, hderive]
      exact Compiling.runsStrictly_insert d
    | none =>
    cases hcut : Text.cutFirst? '.' ty with
    | some parts =>
      rw [compileReference_qualified hbuiltin hcut]
      refine Compiling.runsStrictly_given ?_
      split
      · exact SymbolicSystem.isStrict_resolve _ _
      · exact isStrict_error _
    | none =>
    intro w
    rw [compileReference_declared hbuiltin hcut]
    split
    · exact isStrict_ok _
    · split
      · exact isStrict_error _
      · rename_i decl hdecl
        split
        · exact isStrict_error _
        · obtain ⟨k, hk, -⟩ := Value.exists_mem_of_lookup? hdecl
          have hdeclaration := runsStrictly_compileDeclaration (ih (ty :: chain)) (h _ hk).2 ty
          exact ((Compiling.runsStrictly_placed hdeclaration ty).bind fun _ =>
            RunsStrictly.bind (fun _ => isStrict_ok _) fun _ => runsStrictly_pure _) w

/-- The types of the used libraries are added strictly. -/
theorem runsStrictly_mergeUsed (used : List (String × SymbolicSystem)) :
    RunsStrictly (mergeUsed used) := by
  have hentries : ∀ (entries : List (SemId × TypeDef)) (added : Nat),
      RunsStrictly (Growth.mergeEntries entries added) := by
    intro entries
    induction entries with
    | nil => exact fun added => runsStrictly_pure added
    | cons e entries ih =>
      -- the merge stops at the first definition for which there is no room
      intro added ts
      rw [Growth.mergeEntries]
      dsimp only
      split
      · exact ih added ts
      · split
        · exact ih _ _
        · rename_i f hf
          exact fun g hg => ts.isStrict_add _ _ g (by cases hg; exact hf)
  induction used with
  | nil => exact runsStrictly_pure ()
  | cons e used ih => exact (Compiling.runsStrictly_grow (hentries _ _)).bind fun _ => ih

theorem Readable.runsStrictly_compileAllDeclarations (h : lib.Readable) :
    RunsStrictly (compileAllDeclarations lib used) := by
  refine runsStrictly_forM fun e he => ?_
  obtain ⟨k, v⟩ := e
  obtain ⟨name, rfl⟩ := (h _ he).1
  exact (h.runsStrictly_compileReference _ _ _ _).bind fun _ => runsStrictly_pure ()

/-- A readable library compiles strictly. -/
theorem Readable.runsStrictly_compile (h : lib.Readable) : RunsStrictly (lib.compile used) := by
  unfold compile
  cases lib.uses.find? fun name => (used.lookup name).isNone with
  | some missing => exact runsStrictly_fail_bind
  | none =>
    have hmerged := runsStrictly_mergeUsed used ⟨.empty, []⟩
    generalize mergeUsed used ⟨.empty, []⟩ = start at hmerged
    obtain ⟨merged, bench⟩ := start
    have hdone : IsStrict (compileAllDeclarations lib used bench).1 :=
      h.runsStrictly_compileAllDeclarations bench
    generalize hrun : compileAllDeclarations lib used bench = run at hdone
    obtain ⟨r, done⟩ := run
    dsimp only
    rw [hrun]
    refine (runsStrictly_lift hmerged).bind fun _ => (runsStrictly_log _).bind fun _ => ?_
    exact (runsStrictly_lift hdone).bind fun _ => (runsStrictly_log _).bind fun _ =>
      runsStrictly_pure _

/-! ## Several libraries -/

theorem find?_mem {libs : List TypeLibrary} {name : String} (h : find? libs name = some lib) :
    lib ∈ libs :=
  List.mem_reverse.1 (List.mem_of_find?_eq_some h)

/-- Readable libraries compile strictly, each after those it uses. -/
theorem runsStrictly_compileNamed {libs : List TypeLibrary} (h : ∀ lib ∈ libs, lib.Readable)
    (fuel : Nat) (chain : List String) (done : List (String × SymbolicSystem)) (name : String) :
    RunsStrictly (compileNamed libs fuel chain done name) := by
  induction fuel generalizing chain done name with
  | zero => exact runsStrictly_lift (isStrict_fail _)
  | succ fuel ih =>
    rw [compileNamed, namedStep]
    split
    · exact runsStrictly_pure done
    dsimp only
    split
    · exact runsStrictly_fail_bind
    cases hfind : find? libs name with
    | none => exact runsStrictly_lift (isStrict_fail _)
    | some lib =>
      refine (runsStrictly_foldlM (fun done dep _ => ih _ done dep) done).bind fun done => ?_
      exact (h lib (find?_mem hfind)).runsStrictly_compile.bind fun sys => runsStrictly_pure _

/-- Documents that the form of type libraries accepts have libraries, and these compile together or
fail with a strict error. -/
theorem isStrict_compileAll {documents : List Value}
    (hdocuments : ∀ document ∈ documents, document.isDocument = true)
    (haccepted : ∀ document ∈ documents, DocumentSchema.typeLibrary.check document = .ok []) :
    ∃ libs, documents.mapM ofDocument = .ok libs ∧
      ∀ written, IsStrict (compileAll libs written).1 := by
  have hlibraries : ∀ document ∈ documents, ∃ p : Value × TypeLibrary,
      p.1 = document ∧ ofDocument p.1 = .ok p.2 := by
    intro document hdocument
    obtain ⟨lib, hlib⟩ := exists_ofDocument_iff.2 (haccepted document hdocument)
    exact ⟨(document, lib), rfl, hlib⟩
  obtain ⟨ps, rfl, hps⟩ := exists_eq_map hlibraries
  -- all that compiling asks of the libraries is that they can be read
  have hreadable : ∀ lib ∈ ps.map Prod.snd, lib.Readable := List.forall_mem_map.2 fun p hp =>
    readable_of_ofDocument (hdocuments p.1 (List.mem_map_of_mem hp)) (hps p hp)
  exact ⟨ps.map Prod.snd, mapM_eq_ok.2 ⟨ps, rfl, rfl, hps⟩,
    runsStrictly_foldlM (fun done lib _ => runsStrictly_compileNamed hreadable _ _ done _) []⟩

/-- An enumeration with another name is a document that compiles strictly. -/
theorem isStrict_compileAll_colours : (documentOf "Colours" colours).isDocument = true ∧
    DocumentSchema.typeLibrary.check (documentOf "Colours" colours) = .ok [] ∧
    ∃ libs, [documentOf "Colours" colours].mapM ofDocument = .ok libs ∧
      ∀ written, IsStrict (compileAll libs written).1 :=
  ⟨rfl, check_colours, isStrict_compileAll (List.forall_mem_singleton.2 rfl)
    (List.forall_mem_singleton.2 check_colours)⟩

end TypeLibrary

end StrictContract
