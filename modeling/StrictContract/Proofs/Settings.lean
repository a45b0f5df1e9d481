import Mathlib.Data.List.TakeWhile
import StrictContract.Proofs.Outcome
import StrictContract.Proofs.Table
import StrictContract.Proofs.Value.Keys
import StrictContract.Settings

/-! # Settings — what a document that is loaded changes

The entries of a document are applied one after another. What each **demands** can be read off the
document alone: a value for a setting, or a refusal. Loading **heeds** the values before the first demand
that is at fault and stops there. A document without a fault is applied as a whole; of any other one the
heeded values stay, so it leaves the settings as they were only if they read like this already. -/

namespace StrictContract

/-! ## Tables -/

/-- Keys that are set to values on which all entries agree have these values, the others their old
ones. -/
theorem Table.get?_foldl_put_entries {κ α : Type} [DecidableEq κ] {entries : List (κ × α)}
    {t : Table κ α} {k : κ} (h : ∀ a b, (k, a) ∈ entries → (k, b) ∈ entries → a = b) :
    (entries.foldl (fun t e => t.put e.1 e.2) t).get? k = (entries.lookup k).or (t.get? k) := by
  induction entries generalizing t with
  | nil => rfl
  | cons e entries ih =>
    have hrest := ih (t := t.put e.1 e.2) fun a b ha hb =>
      h a b (List.mem_cons_of_mem _ ha) (List.mem_cons_of_mem _ hb)
    rw [List.foldl_cons, hrest, get?_put, lookup_cons_eq_ite]
    by_cases hk : k = e.1
    · rw [if_pos hk, if_pos hk, Option.some_or]
      cases hlookup : entries.lookup k with
      | none => rfl
      | some a =>
        have hmem : (k, e.2) ∈ e :: entries := hk ▸ List.mem_cons_self ..
        rw [Option.some_or, h a e.2 (List.mem_cons_of_mem _ (mem_of_lookup hlookup)) hmem]
    · rw [if_neg hk, if_neg hk]

/-- No two sections have one name. -/
theorem Section.name_injective : Function.Injective Section.name := by
  intro g h
  cases g <;> cases h <;> simp [name]

/-! ## Demands -/

namespace Settings

/-- What an entry of a document **demands**: a value for a setting, or a refusal. -/
inductive Demand where
  | give (s : Setting) (v : Value)
  | refuse (e : Failure)

namespace Demand

/-- Why a demand is not met, if it is not. -/
def fault? : Demand → Option Failure
  | give s v =>
    match s.admits v with
    | .ok true => none
    | .ok false => some (.setting (.invalidValue v.literal))
    | .error e => some e
  | refuse e => some e

/-- The setting and the value of a demand for a value. -/
def gift? : Demand → Option (Setting × Value)
  | give s v => some (s, v)
  | refuse _ => none

/-- Meets a demand. -/
def meet : Demand → Loading Unit
  | give s v => fun c =>
    match c.give s v with
    | .ok c' => (.ok (), c')
    | .error e => (.error e, c)
  | refuse e => throw e

/-- The demands of an entry that gives no setting a value. -/
def ofOutcome : Except Failure Unit → List Demand
  | .ok () => []
  | .error e => [refuse e]

/-- A value is given unless the demand for it is at fault. -/
theorem give_eq (c : Settings) (s : Setting) (v : Value) :
    c.give s v = match (give s v).fault? with
      | none => .ok { c with values := c.values.put s v }
      | some e => .error e := by
  unfold Settings.give fault?
  dsimp only
  cases s.admits v with
  | error e => rfl
  | ok admitted => cases admitted <;> rfl

/-- A demand that is at fault changes nothing. -/
theorem meet_of_fault {d : Demand} {e : Failure} (h : d.fault? = some e) (c : Settings) :
    d.meet c = (.error e, c) := by
  cases d with
  | give s v =>
    unfold meet
    dsimp only
    rw [give_eq, h]
  | refuse e' =>
    cases h
    rfl

/-- A demand that is not at fault gives a setting its value. -/
theorem meet_of_faultless {d : Demand} (h : d.fault? = none) (c : Settings) :
    ∃ s v, d = give s v ∧ d.meet c = (.ok (), { c with values := c.values.put s v }) := by
  cases d with
  | give s v =>
    refine ⟨s, v, rfl, ?_⟩
    unfold meet
    dsimp only
    rw [give_eq, h]
  | refuse e => cases h

/-- The demands that are met: those before the first fault. -/
def met (ds : List Demand) : List (Setting × Value) :=
  (ds.takeWhile fun d => d.fault?.isNone).filterMap gift?

theorem mem_gifts {ds : List Demand} {s : Setting} {v : Value} :
    (s, v) ∈ ds.filterMap gift? ↔ give s v ∈ ds := by
  rw [List.mem_filterMap]
  constructor
  · rintro ⟨d, hd, hgift⟩
    cases d with
    | give s' v' =>
      cases hgift
      exact hd
    | refuse e => cases hgift
  · exact fun h => ⟨_, h, rfl⟩

theorem mem_of_mem_met {ds : List Demand} {s : Setting} {v : Value} (h : (s, v) ∈ met ds) :
    give s v ∈ ds :=
  List.takeWhile_subset _ (mem_gifts.1 h)

/-- Without a fault everything is met. -/
theorem met_of_faultless {ds : List Demand} (h : ds.findSome? fault? = none) :
    met ds = ds.filterMap gift? := by
  rw [met, List.takeWhile_eq_self_iff.2]
  intro d hd
  rw [List.findSome?_eq_none_iff.1 h d hd]
  rfl

theorem ofOutcome_gifts (x : Except Failure Unit) {s : Setting} {v : Value} :
    give s v ∉ ofOutcome x := by
  cases x with
  | ok _ => exact List.not_mem_nil
  | error e => simp [ofOutcome]

end Demand

open Demand (fault? gift? met)

/-- The outcome of a computation that was refused, or was not. -/
def outcomeOf : Option Failure → Except Failure Unit
  | none => .ok ()
  | some e => .error e

/-- The settings after some were given values. -/
def granting (c : Settings) (gifts : List (Setting × Value)) : Settings :=
  { c with values := gifts.foldl (fun t e => t.put e.1 e.2) c.values }

/-- **Meeting demands one after another** gives the settings the values before the first fault, and fails
with this fault. -/
theorem forM_meet (ds : List Demand) (c : Settings) :
    ds.forM Demand.meet c = (outcomeOf (ds.findSome? fault?), c.granting (met ds)) := by
  induction ds generalizing c with
  | nil => rfl
  | cons d ds ih =>
    show (d.meet >>= fun _ => ds.forM Demand.meet) c = _
    rw [bind_apply, List.findSome?_cons]
    cases hfault : d.fault? with
    | some e =>
      -- the fault ends the loop, so what comes behind it is neither met nor looked at
      rw [Demand.meet_of_fault hfault, met, List.takeWhile_cons_of_neg (by simp [hfault])]
      rfl
    | none =>
      obtain ⟨s, v, rfl, hmeet⟩ := Demand.meet_of_faultless hfault c
      rw [hmeet, met, List.takeWhile_cons_of_pos (by simp [hfault])]
      exact ih _

/-! ## The demands of a document -/

/-- The demands of an entry of a section. -/
def entryDemands (g : Section) (key v : Value) : List Demand :=
  match keyName (g.name ++ ".") key with
  | .error e => [.refuse e]
  | .ok name =>
    match g.settings.find? fun s => s.name == name with
    | some s => [.give s v]
    | none => Demand.ofOutcome (refuseEntry knownNames (g.name ++ ".") name v)

/-- The demands of an entry of a document. -/
def sectionDemands (key v : Value) : List Demand :=
  match keyName "" key with
  | .error e => [.refuse e]
  | .ok name =>
    match Section.all.find? fun g => g.name == name, v with
    | some g, .map entries => entries.flatMap fun e => entryDemands g e.1 e.2
    | some _, _ => [.refuse (.setting (.invalidSection name))]
    | none, _ => Demand.ofOutcome (refuseEntry rootNames "" name v)

/-- The demands of a document, in order. -/
def demands (document : Value) : List Demand :=
  (document.entries?.getD []).flatMap fun e => sectionDemands e.1 e.2

/-- The values that loading a document **heeds**: those before the first fault. -/
def heeded (document : Value) : List (Setting × Value) := met (demands document)

/-- Why a document is refused, if it is. -/
def refusal? (file : String) (document : Value) : Option Failure :=
  if isVoid document then none
  else if document.entries?.isNone then some (.setting (.rootNotMapping file))
  else (demands document).findSome? fault?

/-- A refusal that is not made has no effect. -/
theorem forM_ofOutcome (x : Except Failure Unit) :
    (Demand.ofOutcome x).forM Demand.meet = liftM x := by
  cases x with
  | ok u => rfl
  | error e => rfl

/-- An entry of a section meets its demands. -/
theorem applyEntry_eq_forM (g : Section) (key v : Value) :
    applyEntry g key v = (entryDemands g key v).forM Demand.meet := by
  unfold applyEntry entryDemands
  cases keyName (g.name ++ ".") key with
  | error e => rfl
  | ok name =>
  cases hfind : g.settings.find? fun s => s.name == name with
  | some s =>
    simp only [ok_bind, hfind]
    exact (bind_pure_unit (x := (Demand.give s v).meet)).symm
  | none =>
    simp only [ok_bind, hfind, forM_ofOutcome]
    cases refuseEntry knownNames (g.name ++ ".") name v with
    | ok u => rfl
    | error e => rfl

/-- A loop over entries that meet their demands meets all of them. -/
theorem forM_eq_forM_flatMap {α : Type} {f : α → Loading Unit} {refs : α → List Demand} {xs : List α}
    (h : ∀ x ∈ xs, f x = (refs x).forM Demand.meet) :
    xs.forM f = (xs.flatMap refs).forM Demand.meet := by
  induction xs with
  | nil => rfl
  | cons x xs ih =>
    rw [List.forall_mem_cons] at h
    simp only [List.forM_eq_forM] at ih h ⊢
    rw [List.flatMap_cons, List.forM_append, List.forM_cons, h.1, ih h.2]

/-- An entry of a document meets its demands. -/
theorem applySection_eq_forM (key v : Value) :
    applySection key v = (sectionDemands key v).forM Demand.meet := by
  unfold applySection sectionDemands
  cases keyName "" key with
  | error e => rfl
  | ok name =>
  have hlift : (liftM (Except.ok name : Except Failure String) : Loading String) = pure name := rfl
  rw [hlift, pure_bind]
  cases hfind : Section.all.find? fun g => g.name == name with
  | none =>
    simp only [hfind]
    exact (forM_ofOutcome _).symm
  | some g =>
    simp only [hfind]
    cases v with
    | map entries => exact forM_eq_forM_flatMap fun e _ => applyEntry_eq_forM g e.1 e.2
    | _ => rfl

/-- A document that says nothing has no entries. -/
theorem entries_of_isVoid {document : Value} (h : isVoid document = true) :
    document.entries?.getD [] = [] := by
  cases document with
  | map entries =>
    cases entries with
    | nil => rfl
    | cons e entries => cases h
  | _ => rfl

/-- **Loading a document** gives the settings the values that it heeds, and remembers the file unless the
document is refused or says nothing. -/
theorem load_document (file : String) (document : Value) (c : Settings) :
    load file (.document document) c = (outcomeOf (refusal? file document),
      { c.granting (heeded document) with
        files := c.files ++
          if (refusal? file document).isNone && !isVoid document then [file] else [] }) := by
  cases hvoid : isVoid document with
  | true =>
    have hheeded : heeded document = [] := by
      rw [heeded, demands, entries_of_isVoid hvoid]
      rfl
    simp [load, refusal?, hvoid, hheeded, granting, outcomeOf]
    rfl
  | false =>
    cases document with
    | map entries =>
      have hloop : (entries.forM fun e => applySection e.1 e.2) =
          (demands (.map entries)).forM Demand.meet :=
        forM_eq_forM_flatMap fun e _ => applySection_eq_forM e.1 e.2
      have hload : load file (.document (.map entries)) c =
          ((demands (.map entries)).forM Demand.meet >>= fun _ =>
            modify fun c => { c with files := c.files ++ [file] }) c := by
        rw [← hloop, load, hvoid]
        rfl
      have hrefusal : refusal? file (.map entries) = (demands (.map entries)).findSome? fault? := by
        rw [refusal?, hvoid]
        rfl
      rw [hload, bind_apply, forM_meet, hrefusal]
      cases (demands (.map entries)).findSome? fault? with
      | none => rfl
      | some e =>
        simp [outcomeOf, granting, heeded]
    | _ =>
      simp [load, refusal?, hvoid, heeded, demands, granting, Value.entries?, met, outcomeOf]
      rfl

/-! ## Refusals -/

/-- A document is **refused** with a fault of the settings, or with the misuse of a value or a key of the
wrong type. -/
inductive Refusal : Failure → Prop
  | setting (fault : SettingFault) : Refusal (.setting fault)
  | wrongType : Refusal (.misuse .wrongType)

theorem refusal_of_keyName {place : String} {key : Value} {e : Failure}
    (h : keyName place key = .error e) : Refusal e := by
  unfold keyName at h
  split at h
  · cases h
  · cases h
    exact .setting _
  · cases h
    exact .wrongType

theorem refusal_of_refuseName {known : List String} {place name : String} {e : Failure}
    (h : refuseName known place name = .error e) : Refusal e := by
  cases h
  exact .setting _

theorem refusal_of_refuseEntry {known : List String} {place name : String} {v : Value} {e : Failure}
    (h : refuseEntry known place name v = .error e) : Refusal e := by
  unfold refuseEntry at h
  split at h
  · cases h
  · rename_i key _ _
    dsimp only at h
    cases hkey : keyName (place ++ "__class__.") key with
    | error e' =>
      rw [hkey] at h
      cases h
      exact refusal_of_keyName hkey
    | ok inner =>
      rw [hkey] at h
      exact refusal_of_refuseName h
  · exact refusal_of_refuseName h

/-- A demand is **proper** if all its faults are refusals. -/
def Demand.Proper (d : Demand) : Prop := ∀ e, d.fault? = some e → Refusal e

theorem Demand.proper_give (s : Setting) (v : Value) : (Demand.give s v).Proper := by
  have hbetween : ∀ min max e, Setting.between min max v = .error e → Refusal e := by
    intro min max e h
    unfold Setting.between at h
    split at h
    · cases h
    · cases h
      exact .wrongType
  have hadmits : ∀ e, s.admits v = .error e → Refusal e := by
    intro e h
    cases s with
    | workers => exact hbetween _ _ e h
    | parallelThreshold => exact hbetween _ _ e h
    | logLevel => cases h
    | logFormat => cases h
  intro e h
  unfold fault? at h
  dsimp only at h
  split at h
  · cases h
  · cases h
    exact .setting _
  · rename_i herror
    cases h
    exact hadmits _ herror

theorem Demand.proper_refuse {e : Failure} (h : Refusal e) : (Demand.refuse e).Proper := by
  rintro _ ⟨⟩
  exact h

theorem Demand.proper_of_mem_ofOutcome {x : Except Failure Unit} (h : ∀ e, x = .error e → Refusal e)
    {d : Demand} (hd : d ∈ ofOutcome x) : d.Proper := by
  cases x with
  | ok u => cases hd
  | error e =>
    rw [List.mem_singleton.1 hd]
    exact proper_refuse (h e rfl)

theorem proper_of_mem_entryDemands {g : Section} {key v : Value} {d : Demand}
    (hd : d ∈ entryDemands g key v) : d.Proper := by
  unfold entryDemands at hd
  split at hd
  · rename_i hkey
    rw [List.mem_singleton.1 hd]
    exact Demand.proper_refuse (refusal_of_keyName hkey)
  · split at hd
    · rw [List.mem_singleton.1 hd]
      exact Demand.proper_give _ _
    · exact Demand.proper_of_mem_ofOutcome (fun _ => refusal_of_refuseEntry) hd

/-- Every demand of a document is proper. -/
theorem proper_of_mem_demands {document : Value} {d : Demand} (hd : d ∈ demands document) :
    d.Proper := by
  obtain ⟨⟨key, v⟩, -, hd⟩ := List.mem_flatMap.1 hd
  unfold sectionDemands at hd
  split at hd
  · rename_i hkey
    rw [List.mem_singleton.1 hd]
    exact Demand.proper_refuse (refusal_of_keyName hkey)
  · split at hd
    · obtain ⟨f, -, hd⟩ := List.mem_flatMap.1 hd
      exact proper_of_mem_entryDemands hd
    · rw [List.mem_singleton.1 hd]
      exact Demand.proper_refuse (.setting _)
    · exact Demand.proper_of_mem_ofOutcome (fun _ => refusal_of_refuseEntry) hd

theorem refusal_of_refusal? {file : String} {document : Value} {e : Failure}
    (h : refusal? file document = some e) : Refusal e := by
  unfold refusal? at h
  split at h
  · cases h
  · split at h
    · cases h
      exact .setting _
    · obtain ⟨d, hd, hfault⟩ := List.exists_of_findSome?_eq_some h
      exact proper_of_mem_demands hd e hfault

/-! ## What a document says -/

/-- A document is **keyed** if neither it nor a section of it has a key twice. -/
structure Keyed (document : Value) : Prop where
  root : ((document.entries?.getD []).map Prod.fst).Nodup
  sections : ∀ g v, document.entry? (Section.name g) = some v →
    ((v.entries?.getD []).map Prod.fst).Nodup

/-- What a document **says** of a setting. -/
def says? (document : Value) (s : Setting) : Option Value :=
  (document.entry? s.group.name).bind fun v => v.entry? s.name

theorem keyName_eq_ok {place : String} {key : Value} {name : String} :
    keyName place key = .ok name ↔ key = .text name := by
  cases key with
  | text s => rw [keyName, Except.ok.injEq, Value.text.injEq]
  | _ => exact iff_of_false (fun h => by cases h) fun h => by cases h

/-- A setting is found by its name in its section, and nothing else is. -/
theorem find?_settings {g : Section} {s : Setting} {name : String} :
    (g.settings.find? fun s => s.name == name) = some s ↔ s.group = g ∧ s.name = name := by
  constructor
  · intro h
    refine ⟨?_, by simpa using List.find?_some h⟩
    have hmem := List.mem_of_find?_eq_some h
    revert hmem
    cases g <;> cases s <;> decide
  · rintro ⟨rfl, rfl⟩
    cases s <;> rfl

theorem find?_sections {g : Section} {name : String} :
    (Section.all.find? fun g => g.name == name) = some g ↔ g.name = name := by
  constructor
  · exact fun h => by simpa using List.find?_some h
  · rintro rfl
    cases g <;> rfl

/-- A section demands a value for a setting exactly if the entry of the setting has it. -/
theorem give_mem_entryDemands {g : Section} {key v x : Value} {s : Setting} :
    Demand.give s v ∈ entryDemands g key x ↔ s.group = g ∧ key = .text s.name ∧ x = v := by
  unfold entryDemands
  cases hkey : keyName (g.name ++ ".") key with
  | error e =>
    refine iff_of_false (by simp) fun ⟨_, hname, _⟩ => ?_
    rw [keyName_eq_ok.2 hname] at hkey
    cases hkey
  | ok name =>
  obtain rfl := keyName_eq_ok.1 hkey
  dsimp only
  cases hfind : g.settings.find? fun s => s.name == name with
  | some s' =>
    dsimp only
    rw [List.mem_singleton, Demand.give.injEq, Value.text.injEq]
    constructor
    · rintro ⟨rfl, rfl⟩
      obtain ⟨hgroup, hname⟩ := find?_settings.1 hfind
      exact ⟨hgroup, hname.symm, rfl⟩
    · rintro ⟨hgroup, hname, rfl⟩
      rw [find?_settings.2 ⟨hgroup, hname.symm⟩] at hfind
      exact ⟨Option.some.inj hfind, rfl⟩
  | none =>
    refine iff_of_false (Demand.ofOutcome_gifts _) fun ⟨hgroup, hname, _⟩ => ?_
    rw [find?_settings.2 ⟨hgroup, (Value.text.inj hname).symm⟩] at hfind
    cases hfind

/-- An entry of a document demands for a setting what it has under the setting's name, if it is that of
the setting's section. -/
theorem give_mem_sectionDemands {key v x : Value} {s : Setting} :
    Demand.give s v ∈ sectionDemands key x ↔
      key = .text s.group.name ∧ (.text s.name, v) ∈ x.entries?.getD [] := by
  unfold sectionDemands
  cases hkey : keyName "" key with
  | error e =>
    refine iff_of_false (by simp) fun ⟨hname, _⟩ => ?_
    rw [keyName_eq_ok.2 hname] at hkey
    cases hkey
  | ok name =>
  obtain rfl := keyName_eq_ok.1 hkey
  dsimp only
  cases hfind : Section.all.find? fun g => g.name == name with
  | none =>
    refine iff_of_false (Demand.ofOutcome_gifts _) fun ⟨hname, _⟩ => ?_
    rw [find?_sections.2 (Value.text.inj hname).symm] at hfind
    cases hfind
  | some g =>
  have hgroup : s.group = g ↔ name = s.group.name := by
    rw [← find?_sections.1 hfind, eq_comm]
    exact Section.name_injective.eq_iff.symm
  cases x with
  | map entries =>
    simp only [List.mem_flatMap, give_mem_entryDemands, Value.text.injEq, Value.entries?,
      Option.getD_some, ← hgroup]
    constructor
    · rintro ⟨⟨k, y⟩, hmem, rfl, rfl, rfl⟩
      exact ⟨rfl, hmem⟩
    · rintro ⟨rfl, hmem⟩
      exact ⟨_, hmem, rfl, rfl, rfl⟩
  | _ => exact iff_of_false (by simp) fun ⟨_, hmem⟩ => List.not_mem_nil hmem

/-- A keyed document demands for a setting what it says of it. -/
theorem give_mem_demands {document v : Value} (hkeyed : Keyed document) {s : Setting} :
    Demand.give s v ∈ demands document ↔ says? document s = some v := by
  rw [demands, List.mem_flatMap, says?, Option.bind_eq_some_iff]
  constructor
  · rintro ⟨⟨k, x⟩, hmem, hgive⟩
    obtain ⟨rfl, hentry⟩ := give_mem_sectionDemands.1 hgive
    have hsection := (Value.entry?_eq_some_iff hkeyed.root).2 hmem
    refine ⟨x, hsection, ?_⟩
    exact (Value.entry?_eq_some_iff (hkeyed.sections _ x hsection)).2 hentry
  · rintro ⟨x, hsection, hentry⟩
    have hmem := (Value.entry?_eq_some_iff hkeyed.root).1 hsection
    refine ⟨_, hmem, give_mem_sectionDemands.2 ⟨rfl, ?_⟩⟩
    exact (Value.entry?_eq_some_iff (hkeyed.sections _ x hsection)).1 hentry

/-! ## All or a part -/

/-- What is heeded is what the document says. -/
theorem says?_of_mem_heeded {document v : Value} (hkeyed : Keyed document) {s : Setting}
    (h : (s, v) ∈ heeded document) : says? document s = some v :=
  (give_mem_demands hkeyed).1 (Demand.mem_of_mem_met h)

/-- Loading changes the values that are heeded and no others. -/
theorem get?_granting_heeded {document : Value} (hkeyed : Keyed document) (c : Settings) (s : Setting) :
    (c.granting (heeded document)).values.get? s =
      ((heeded document).lookup s).or (c.values.get? s) := by
  -- a setting may only be heeded twice with one value: that which the document says
  refine Table.get?_foldl_put_entries fun v w hv hw => ?_
  exact Option.some.inj
    ((says?_of_mem_heeded hkeyed hv).symm.trans (says?_of_mem_heeded hkeyed hw))

/-- A document that is not refused is heeded in all that it says. -/
theorem lookup_heeded_of_accepted {file : String} {document : Value} (hkeyed : Keyed document)
    (h : refusal? file document = none) (s : Setting) :
    (heeded document).lookup s = says? document s := by
  have hfaultless : (demands document).findSome? fault? = none := by
    unfold refusal? at h
    split at h
    · rename_i hvoid
      rw [demands, entries_of_isVoid hvoid]
      rfl
    · split at h
      · cases h
      · exact h
  have hmem : ∀ v, (s, v) ∈ heeded document ↔ says? document s = some v := fun v => by
    rw [heeded, Demand.met_of_faultless hfaultless, Demand.mem_gifts, give_mem_demands hkeyed]
  cases hsays : says? document s with
  | none =>
    rw [← Option.not_isSome_iff_eq_none, isSome_lookup]
    intro hkey
    obtain ⟨⟨_, v⟩, hv, rfl⟩ := List.mem_map.1 hkey
    rw [hmem, hsays] at hv
    cases hv
  | some v =>
    have hsome : ((heeded document).lookup s).isSome = true :=
      isSome_lookup.2 (List.mem_map_of_mem ((hmem v).2 hsays))
    obtain ⟨w, hw⟩ := Option.isSome_iff_exists.1 hsome
    have hsaid := (hmem w).1 (mem_of_lookup hw)
    rw [hw, ← hsaid, hsays]

/-- A setting reads as the value that it was given, where no variable overrides it. -/
theorem value_of_get? {c : Settings} {s : Setting} {v : Value}
    (hvariable : c.environment.get? s.variableName = none) (h : c.values.get? s = some v) :
    c.value s = .ok v := by
  rw [value, hvariable, h]
  rfl

/-- A setting that may have heard of a value reads as before if it read so already or is overridden. -/
theorem value_eq_iff {c c' : Settings} {s : Setting} (henvironment : c'.environment = c.environment)
    {heard : Option Value} (hvalues : c'.values.get? s = heard.or (c.values.get? s)) :
    c'.value s = c.value s ↔ ∀ v, heard = some v → c.environment.get? s.variableName = none →
      c.value s = .ok v := by
  unfold value
  rw [henvironment, hvalues]
  cases c.environment.get? s.variableName with
  | some text => simp
  | none =>
    cases heard with
    | none => simp
    | some v => simp [eq_comm]

/-- **A document is applied as a whole, or its first part is.** Loading one that has no key twice
succeeds or is refused. Either way the environment stays, the settings that are heeded get what the
document says of them, and the others keep their values. If it succeeds, everything that the document
says is heeded and reads so where no variable overrides it, and the file is remembered unless it says
nothing. If it is refused, the files stay, and the settings read as before exactly if those that were
heeded read so already or are overridden. -/
theorem load_heeds (file : String) {document : Value} (hkeyed : Keyed document) (c : Settings) :
    ∃ c', load file (.document document) c = (outcomeOf (refusal? file document), c') ∧
      c'.environment = c.environment ∧
      (∀ s, c'.values.get? s = ((heeded document).lookup s).or (c.values.get? s)) ∧
      (∀ s v, (heeded document).lookup s = some v → says? document s = some v) ∧
      (refusal? file document = none →
        (∀ s, (heeded document).lookup s = says? document s) ∧
        (∀ s v, says? document s = some v → c.environment.get? s.variableName = none →
          c'.value s = .ok v) ∧
        c'.files = c.files ++ if isVoid document then [] else [file]) ∧
      ∀ e, refusal? file document = some e → Refusal e ∧ c'.files = c.files ∧
        ((∀ s, c'.value s = c.value s) ↔ ∀ s v, (heeded document).lookup s = some v →
          c.environment.get? s.variableName = none → c.value s = .ok v) := by
  have hvalues := get?_granting_heeded hkeyed c
  refine ⟨_, load_document file document c, rfl, hvalues,
    fun s v h => says?_of_mem_heeded hkeyed (mem_of_lookup h), fun haccepted => ⟨?_, ?_, ?_⟩,
    fun e hrefused => ⟨refusal_of_refusal? hrefused, ?_, ?_⟩⟩
  · exact lookup_heeded_of_accepted hkeyed haccepted
  · intro s v hsays hvariable
    have hnow : (c.granting (heeded document)).values.get? s = some v := by
      rw [hvalues, lookup_heeded_of_accepted hkeyed haccepted, hsays, Option.some_or]
    exact value_of_get? hvariable hnow
  · rw [haccepted]
    cases isVoid document <;> rfl
  · rw [hrefused]
    exact List.append_nil _
  · refine forall_congr' fun s => value_eq_iff ?_ (hvalues s)
    rfl

/-- A document with two settings. -/
def parallel : Value :=
  .map [(.text "checker", .map [(.text "workers", .int 2), (.text "parallel_threshold", .int 3)])]

/-- A document with a setting and a key that names none. -/
def straying : Value :=
  .map [(.text "checker", .map [(.text "workers", .int 2), (.text "threads", .int 4)])]

/-- Two settings are loaded together. -/
theorem load_heeds_parallel : Keyed parallel ∧
    ∃ c, load "parallel" (.document parallel) fresh = (.ok (), c) ∧
      c.value .workers = .ok (.int 2) ∧ c.value .parallelThreshold = .ok (.int 3) ∧
      c.files = ["parallel"] := by
  have hkeyed : Keyed parallel := by
    refine ⟨by simp [parallel, Value.entries?], fun g v h => ?_⟩
    have hmem := (Value.entry?_eq_some_iff (by simp [parallel, Value.entries?])).1 h
    have hsection : v = .map [(.text "workers", .int 2), (.text "parallel_threshold", .int 3)] := by
      simp only [parallel, Value.entries?, Option.getD_some, List.mem_singleton] at hmem
      exact (Prod.ext_iff.1 hmem).2
    simp [hsection, Value.entries?]
  have haccepted : refusal? "parallel" parallel = none := by decide
  obtain ⟨c, hload, -, -, -, hsuccess, -⟩ := load_heeds "parallel" hkeyed fresh
  rw [haccepted] at hload
  obtain ⟨-, hreads, hfiles⟩ := hsuccess haccepted
  refine ⟨hkeyed, c, hload, hreads _ _ ?_ rfl, hreads _ _ ?_ rfl, hfiles⟩
  all_goals simp [says?, parallel, Setting.group, Setting.name, Section.name, Value.entry?,
    Value.lookup?, Value.same]

/-- A document that is refused leaves a part of it behind: the worker threads that it gives before the
key that names nothing are there afterwards, although no file is loaded. One with a text for a number
is not even refused as a fault of the settings. -/
theorem load_keeps_part :
    (∃ c, load "straying" (.document straying) fresh =
        (.error (.setting (.unknownKey "checker.threads")), c) ∧
      fresh.value .workers = .ok (.int 1) ∧ c.value .workers = .ok (.int 2) ∧ c.files = []) ∧
    load "worded"
        (.document (.map [(.text "checker", .map [(.text "workers", .text "two")])])) fresh =
      (.error (.misuse .wrongType), fresh) :=
  ⟨⟨_, rfl, rfl, rfl, rfl⟩, rfl⟩

end Settings

end StrictContract
