import StrictContract.Proofs.Contract.Matching
import StrictContract.Proofs.Contract.Returning
import StrictContract.Proofs.Contract.SoleFaults

/-! # Reproducing reports — what a report owes to the order of supply

Consignments with the same parts match, so besides faults a check finds the same in both, or fails with
the same failure. Where no set or table has several faults, the faults are the same, too, and so is the
whole report. Otherwise the reports differ only in what they say of records without an encoding:
position by position they hold the same violation or **counterparts**, faults of the same record. -/

namespace StrictContract

open Codec

/-! ## Records with the same parts match -/

/-- What gives the same results is the same, failures apart. -/
theorem toOption_eq_of_iff {α : Type} {x y : Except Failure α} (h : ∀ a, x = .ok a ↔ y = .ok a) :
    x.toOption = y.toOption :=
  Option.ext fun a => by rw [toOption_eq_some, toOption_eq_some, h]

theorem Assignments.Matches.refl (a : Assignments) : a.Matches a where
  kind := rfl
  items := by
    refine List.forall₂_same.2 fun x _ => ?_
    cases x with
    | revealed definition state => exact .revealed rfl fun _ _ => rfl
    | confidential secret state => exact .confidential fun _ _ => rfl

theorem OperationState.SameParts.matches {s t : OperationState} (h : s.SameParts t) : s.Matches t where
  metadata := h.metadata.imp fun _ _ hvw => hvw ▸ .refl _
  globals := h.globals.imp fun _ _ hvw => hvw ▸ List.forall₂_same.2 fun v _ => .refl v
  assignments := h.assignments.imp fun a _ hab => hab ▸ .refl a

theorem Transition.SameParts.matches {t u : Transition} (h : t.SameParts u) : t.Matches u := by
  obtain ⟨hrest, hinputs, hstate⟩ := h
  rw [hrest]
  exact ⟨rfl, rfl, rfl, rfl, hinputs, hstate.matches⟩

theorem Schema.SameParts.matches {s t : Schema} (h : s.SameParts t) : s.Matches t where
  display := by rw [h.name]
  metaTypes := h.metaTypes.imp fun _ _ hde => hde ▸ rfl
  globalTypes := h.globalTypes.imp fun _ _ hde => hde ▸ ⟨rfl, rfl⟩
  ownedTypes := h.ownedTypes.imp fun _ _ hde => hde ▸ ⟨rfl, fun _ => .rfl⟩
  genesis := h.genesis
  transitions := h.transitions.imp fun _ _ hde => hde.2

theorem Bundle.SameParts.matches {a b : Bundle} (h : a.SameParts b) : a.Matches b where
  bundleId := toOption_eq_of_iff h.reordered_inputMap.identifier_eq_ok
  inputMap := h.inputMap
  known := h.known.imp fun _ _ htu =>
    ⟨toOption_eq_of_iff (Operation.SameParts.transition htu).reordered.identifier_eq_ok, htu.matches⟩

namespace Consignment

variable {c d : Consignment}

/-- Consignments with the same parts match, if no type has two definitions. -/
theorem SameParts.matches (h : c.SameParts d) (htypes : c.types.WellFormed) : c.Matches d where
  schemaId := toOption_eq_of_iff h.schema.reordered.identifier_eq_ok
  genesisId := toOption_eq_of_iff (Operation.SameParts.genesis h.genesis).reordered.identifier_eq_ok
  reference := by rw [h.genesis.rest]
  genesis := h.genesis.state.matches
  schema := h.schema.matches
  types := TypeSystem.matches_of_perm htypes.nodup h.types
  bundles := by
    obtain ⟨xs, hc, hd, hxs⟩ := h.bundles
    rw [hc, hd, List.forall₂_map_left_iff, List.forall₂_map_right_iff, List.forall₂_same]
    exact fun x hx => (hxs x hx).bundle.matches
  terminals := h.terminals
  scripts := h.scripts

end Consignment

/-! ## The same parts are ordinary alike -/

theorem OperationState.SameParts.mem_supplied {s t : OperationState} (h : s.SameParts t) {v : Value} :
    v ∈ s.supplied ↔ v ∈ t.supplied :=
  h.assignments.mem_flatMap_values fun a b hab => by rw [hab]

theorem Genesis.SameParts.mem_supplied {g h : Genesis} (hsame : g.SameParts h) {v : Value} :
    v ∈ g.supplied ↔ v ∈ h.supplied := by
  obtain ⟨hrest, hstate⟩ := hsame
  rw [hrest]
  simp only [supplied, List.mem_cons, hstate.mem_supplied]

theorem Transition.SameParts.mem_supplied {t u : Transition} (h : t.SameParts u) {v : Value} :
    v ∈ t.supplied ↔ v ∈ u.supplied := by
  obtain ⟨hrest, -, hstate⟩ := h
  rw [hrest]
  simp only [supplied, List.mem_cons, hstate.mem_supplied]

/-- Schemas with the same parts as a regular one are regular. -/
theorem Schema.SameParts.regular {s t : Schema} (h : s.SameParts t) (hs : s.Regular) : t.Regular := by
  have hinputs : ∀ {a b : OperationSchema}, a.SameParts b → a.inputs.isSome = b.inputs.isSome := by
    intro a b hab
    have hinputs := hab.inputs
    generalize a.inputs = x at hinputs
    generalize b.inputs = y at hinputs
    cases hinputs <;> rfl
  refine ⟨?_, fun e he => ?_⟩
  · have hgenesis := hinputs h.genesis
    rw [hs.genesis] at hgenesis
    exact Option.isNone_iff_eq_none.1 (Option.isSome_eq_false_iff.1 hgenesis.symm)
  · rcases h.transitions.none_or_some e.1 with ⟨-, hnone⟩ | ⟨a, b, ha, hb, hab⟩
    · rw [Table.mem_entries.1 he] at hnone
      cases hnone
    · rw [Table.mem_entries.1 he] at hb
      cases hb
      exact (hinputs hab.2).symm.trans (hs.transitions _ (Table.mem_entries.2 ha))

namespace Consignment

variable {c d : Consignment}

theorem SameParts.mem_supplied (h : c.SameParts d) {v : Value} : v ∈ c.supplied ↔ v ∈ d.supplied := by
  have hamounts : v ∈ c.schema.amounts ↔ v ∈ d.schema.amounts :=
    h.schema.ownedTypes.mem_flatMap_values fun a b hab => by rw [hab]
  obtain ⟨xs, hc, hd, hxs⟩ := h.bundles
  have hbundles : (v ∈ c.bundles.flatMap fun w => w.bundle.supplied) ↔
      v ∈ d.bundles.flatMap fun w => w.bundle.supplied := by
    refine mem_flatMap_of_forall₂ (R := fun x y => x.SameParts y) ?_ fun x y hxy =>
      hxy.bundle.known.mem_flatMap_values fun t u htu => htu.mem_supplied
    rw [hc, hd, List.forall₂_map_left_iff, List.forall₂_map_right_iff, List.forall₂_same]
    exact hxs
  simp only [supplied, List.mem_append, List.mem_cons, h.version, h.genesis.mem_supplied, hamounts,
    hbundles]

/-- Consignments with the same parts as an ordinary one are ordinary. -/
theorem SameParts.ordinary (h : c.SameParts d) (hc : c.Ordinary) : d.Ordinary where
  schema := h.schema.regular hc.schema
  types := hc.types.of_perm h.types.symm
  supplied v hv := hc.supplied v (h.mem_supplied.2 hv)

/-! ## Records, one by one -/

/-- The records of consignments with the same parts stand at the same places, and are related if those
of operations, schemas and input maps are. -/
theorem SameParts.forall₂_records {R : Except Failure Octets → Except Failure Octets → Prop}
    (h : c.SameParts d) (hschema : R c.schema.encode d.schema.encode)
    (hgenesis : R (Operation.genesis c.genesis).encode (Operation.genesis d.genesis).encode)
    (hinputMap : ∀ w ∈ c.bundles, ∀ b, w.bundle.SameParts b →
      R (Bundle.inputMapCodec.write w.bundle.inputMapValue) (Bundle.inputMapCodec.write b.inputMapValue))
    (htransition : ∀ w ∈ c.bundles, ∀ e ∈ w.bundle.known.entries, ∀ t, e.2.SameParts t →
      R (Operation.transition e.2).encode (Operation.transition t).encode) :
    List.Forall₂ (fun r s => r.1 = s.1 ∧ R r.2 s.2) c.records d.records := by
  obtain ⟨xs, hc, hd, hxs⟩ := h.bundles
  have hbundles : List.Forall₂ (fun v w => v ∈ c.bundles ∧ v.bundle.SameParts w.bundle) c.bundles
      d.bundles := by
    rw [hc, hd, List.forall₂_map_left_iff, List.forall₂_map_right_iff, List.forall₂_same]
    exact fun x hx => ⟨List.mem_map_of_mem hx, (hxs x hx).bundle⟩
  refine .cons ⟨rfl, hschema⟩ (.cons ⟨rfl, hgenesis⟩ ?_)
  refine List.rel_flatMap (forall₂_zipIdx hbundles 0) ?_
  rintro ⟨v, i⟩ ⟨w, j⟩ ⟨⟨hv, hvw⟩, rfl⟩
  refine .cons ⟨rfl, hinputMap v hv _ hvw⟩ ?_
  rw [List.forall₂_map_left_iff, List.forall₂_map_right_iff]
  have hknown : v.bundle.known.Agrees (fun t u => R (Operation.transition t).encode
      (Operation.transition u).encode) w.bundle.known :=
    hvw.known.imp_of_mem fun e he t ht => htransition v hv e he t ht
  refine (hknown.forall₂_sorted Id.orders_le).imp ?_
  rintro e e' ⟨hkey, hencode⟩
  exact ⟨by rw [hkey], hencode⟩

/-- Regular consignments with the same parts have the same records, if these have sole faults. -/
theorem SameParts.records_eq (h : c.SameParts d) (hsole : c.SoleFaults)
    (hschema : c.schema.Regular) : c.records = d.records := by
  have hrecords := h.forall₂_records (R := (· = ·)) (h.schema.encode_eq hsole.schema hschema)
    (h.genesis.encode_eq hsole.genesis)
    (fun w hw b hb => hb.write_inputMap (hsole.bundles w hw))
    fun w hw e he t ht => ht.encode_eq ((hsole.bundles w hw).known e he)
  rw [← List.forall₂_eq_eq_eq]
  exact hrecords.imp fun r s hrs => Prod.ext hrs.1 hrs.2

/-- Consignments with the same parts have the same faults, if these are sole ones. -/
theorem SameParts.faults_eq (h : c.SameParts d) (hsole : c.SoleFaults) (hschema : c.schema.Regular)
    (htypes : c.types.WellFormed) : c.faults = d.faults := by
  have hown : ∀ found, c.ownFault found = d.ownFault found := by
    intro found
    rw [ownFault, ownFault, h.encode_eq hsole hschema htypes]
  rw [faults, faults, h.records_eq hsole hschema]
  simp only [hown]

/-! ## Counterparts -/

/-- The record at a place, or at the place of the whole the consignment itself, has no encoding. -/
def Faulty (c : Consignment) (path : String) (e : StrictError) : Prop :=
  (path, .error (.strict e)) ∈ c.records ∨ path = "" ∧ c.encode = .error (.strict e)

/-- Violations that are **counterparts**: faults of the same record in two consignments. -/
def Counterparts (c d : Consignment) (e e' : StrictError) : Prop :=
  ∃ path f f', c.Faulty path f ∧ d.Faulty path f' ∧ e = f.within path ∧ e' = f'.within path

/-- A record that is encoded alike in two consignments has no fault, or faults that are counterparts. -/
theorem exists_counterparts (path : String) {x y : Except Failure Octets}
    (hxy : ∀ p, x = .ok p ↔ y = .ok p) (hx : IsStrict x) (hy : IsStrict y)
    (hc : ∀ e, x = .error (.strict e) → c.Faulty path e)
    (hd : ∀ e, y = .error (.strict e) → d.Faulty path e) :
    ∃ found found', faultOf path x = .ok found ∧ faultOf path y = .ok found' ∧
      List.Forall₂ (c.Counterparts d) found found' := by
  cases x with
  | ok p =>
    rw [(hxy p).1 rfl]
    exact ⟨[], [], rfl, rfl, .nil⟩
  | error f =>
    cases y with
    | ok p => cases (hxy p).2 rfl
    | error f' =>
      obtain ⟨e, rfl⟩ := hx f rfl
      obtain ⟨e', rfl⟩ := hy f' rfl
      exact ⟨_, _, rfl, rfl, .cons ⟨path, e, e', hc e rfl, hd e' rfl, rfl, rfl⟩ .nil⟩

/-- Records that are encoded alike, one by one, have faults that are counterparts. -/
theorem exists_counterparts_of_records {rs ss : List (String × Except Failure Octets)}
    (h : List.Forall₂ (fun r s => r.1 = s.1 ∧ ∀ p, r.2 = .ok p ↔ s.2 = .ok p) rs ss)
    (hrs : ∀ r ∈ rs, IsStrict r.2 ∧ r ∈ c.records) (hss : ∀ s ∈ ss, IsStrict s.2 ∧ s ∈ d.records) :
    ∃ found found', faultsOf rs = .ok found ∧ faultsOf ss = .ok found' ∧
      List.Forall₂ (c.Counterparts d) found found' := by
  induction h with
  | nil => exact ⟨[], [], rfl, rfl, .nil⟩
  | @cons r s rs ss hrs' _ ih =>
    obtain ⟨path, x⟩ := r
    obtain ⟨_, y⟩ := s
    obtain ⟨rfl, hxy⟩ := hrs'
    rw [List.forall_mem_cons] at hrs hss
    obtain ⟨own, own', hown, hown', hpair⟩ := exists_counterparts (c := c) (d := d) path hxy
      hrs.1.1 hss.1.1 (fun e he => .inl (by rw [← he]; exact hrs.1.2))
      fun e he => .inl (by rw [← he]; exact hss.1.2)
    obtain ⟨found, found', hfound, hfound', hpairs⟩ := ih hrs.2 hss.2
    refine ⟨own ++ found, own' ++ found', ?_, ?_, List.rel_append hpair hpairs⟩
    · rw [faultsOf_cons, hown, hfound]
      rfl
    · rw [faultsOf_cons, hown', hfound']
      rfl

/-- The faults of ordinary consignments with the same parts are counterparts, one by one. -/
theorem SameParts.exists_faults (h : c.SameParts d) (hc : c.Ordinary) :
    ∃ found found', c.faults = .ok found ∧ d.faults = .ok found' ∧
      List.Forall₂ (c.Counterparts d) found found' := by
  have hd := h.ordinary hc
  have hrecords := h.forall₂_records (R := fun x y => ∀ p, x = .ok p ↔ y = .ok p)
    h.schema.reordered.write_eq_ok (Operation.SameParts.genesis h.genesis).reordered.write_eq_ok
    (fun w _ b hb => hb.reordered_inputMap.write_eq_ok)
    fun w _ e _ t ht => (Operation.SameParts.transition ht).reordered.write_eq_ok
  obtain ⟨found, found', hfound, hfound', hpairs⟩ := exists_counterparts_of_records hrecords
    (fun r hr => ⟨hc.isStrict_records r hr, hr⟩) fun r hr => ⟨hd.isStrict_records r hr, hr⟩
  obtain ⟨own, own', hown, hown', hpair⟩ := exists_counterparts "" (x := c.encode) (y := d.encode)
    h.reordered.write_eq_ok hc.isStrict_encode hd.isStrict_encode (fun e he => .inr ⟨rfl, he⟩)
    fun e he => .inr ⟨rfl, he⟩
  rw [faults, faults, hfound, hfound', ok_bind, ok_bind]
  cases hpairs with
  | nil =>
    refine ⟨own, own', ?_, ?_, hpair⟩
    · show (do return [] ++ (← faultOf "" c.encode)) = _
      rw [hown]
      rfl
    · show (do return [] ++ (← faultOf "" d.encode)) = _
      rw [hown']
      rfl
  | @cons e e' found found' hfirst hrest =>
    exact ⟨e :: found ++ [], e' :: found' ++ [], rfl, rfl, .cons hfirst (List.rel_append hrest .nil)⟩

/-! ## Reports -/

/-- Consignments with the same parts have the same findings besides faults. -/
theorem SameParts.otherFindings_eq (h : c.SameParts d) (htypes : c.types.WellFormed) :
    c.otherFindings c.indexed = d.otherFindings d.indexed :=
  (h.matches htypes).otherFindings_eq

/-- **Checks of consignments with the same parts.** If every set and table has at most one fault, both
checks have the same outcome. In any case they fail alike, and their reports hold, position by
position, the same violation or faults of the same record. -/
theorem check_of_sameParts (h : c.SameParts d) :
    (c.SoleFaults → c.schema.Regular → c.types.WellFormed →
      ∀ outcome, c.check.Yields outcome ↔ d.check.Yields outcome) ∧
    (c.Ordinary → (∀ failure, c.check.Yields (.error failure) ↔ d.check.Yields (.error failure)) ∧
      ∀ report, c.check.Yields (.ok report) → ∃ report', d.check.Yields (.ok report') ∧
        List.Forall₂ (fun e e' => e = e' ∨ c.Counterparts d e e') report.violations
          report'.violations) := by
  have hcheck := c.check_yields_faults
  have hcheck' := d.check_yields_faults
  constructor
  · intro hsole hschema htypes outcome
    rw [← h.otherFindings_eq htypes, ← h.faults_eq hsole hschema htypes] at hcheck'
    constructor
    · intro houtcome
      rwa [hcheck.unique houtcome] at hcheck'
    · intro houtcome
      rwa [hcheck'.unique houtcome] at hcheck
  · -- faults may differ, but there are as many, and all other findings are the same
    intro hc
    obtain ⟨found, found', hfound, hfound', hpairs⟩ := h.exists_faults hc
    rw [hfound, ok_bind] at hcheck
    rw [hfound', ok_bind, ← h.otherFindings_eq hc.types] at hcheck'
    cases hrest : c.otherFindings c.indexed with
    | error failure =>
      have hfails : c.check.Yields (.error failure) := by rwa [hrest] at hcheck
      have hfails' : d.check.Yields (.error failure) := by rwa [hrest] at hcheck'
      refine ⟨fun failure' => ⟨fun h => ?_, fun h => ?_⟩, fun report hreport => ?_⟩
      · cases hfails.unique h
        exact hfails'
      · cases hfails'.unique h
        exact hfails
      · cases hfails.unique hreport
    | ok rest =>
      have hreports : c.check.Yields (.ok ⟨found ++ rest⟩) := by rwa [hrest] at hcheck
      have hreports' : d.check.Yields (.ok ⟨found' ++ rest⟩) := by rwa [hrest] at hcheck'
      refine ⟨fun failure => ⟨fun h => ?_, fun h => ?_⟩, fun report hreport => ?_⟩
      · cases hreports.unique h
      · cases hreports'.unique h
      · cases hreports.unique hreport
        exact ⟨_, hreports', List.rel_append (hpairs.imp fun _ _ => .inr)
          (List.forall₂_same.2 fun _ _ => .inl rfl)⟩

/-! ### Metadata in two orders -/

/-- A consignment like the smallest one, with metadata. -/
def annotated (schemaId : SchemaId) (metadata : Table Int Value) : Consignment :=
  { smallest schemaId with
    genesis := { smallestGenesis schemaId with state := ⟨metadata, .empty, .empty⟩ } }

variable {schemaId : SchemaId} {t u : Table Int Value}

theorem sameParts_annotated (h : t.entries.Perm u.entries) :
    (annotated schemaId t).SameParts (annotated schemaId u) where
  version := rfl
  transfer := rfl
  terminals := fun _ => .none
  genesis := ⟨rfl, Table.agrees_of_perm h, fun _ => .none, fun _ => .none⟩
  bundles := ⟨[], rfl, rfl, nofun⟩
  schema := ⟨rfl, fun _ => .none, fun _ => .none, fun _ => .none,
    ⟨fun _ => .none, fun _ => .none, .none, fun _ => .none, rfl⟩, fun _ => .none⟩
  types := .refl _
  scripts := .refl _

theorem ordinary_annotated : (annotated schemaId t).Ordinary :=
  ordinary_of_smallest ⟨rfl, List.forall_mem_nil _⟩ TypeSystem.wellFormed_empty [] (ordinary_int 0)
    (List.forall_mem_nil _) rfl

theorem exists_report_annotated (schemaId : SchemaId) (t : Table Int Value) :
    ∃ report, (annotated schemaId t).check.Yields (.ok report) :=
  ordinary_annotated.exists_report_iff.2 (List.forall_mem_singleton.2
    { metadata := fun _ _ hallowed => by cases hallowed
      globals := List.forall_mem_nil _
      assignments := List.forall_mem_nil _ })

/-- Two metadata entries in two orders, with types that have encodings: the reports are the same, and so
they have counterparts. -/
theorem check_of_sameParts_annotated : ∃ (c d : Consignment) (report : Report),
    c.genesis.state.metadata.keys = [1, 2] ∧ d.genesis.state.metadata.keys = [2, 1] ∧
      c.SameParts d ∧ c.SoleFaults ∧ c.check.Yields (.ok report) ∧ d.check.Yields (.ok report) ∧
      List.Forall₂ (fun e e' => e = e' ∨ c.Counterparts d e e') report.violations
        report.violations := by
  let unknown : SchemaId := zeroId .schema
  let t : Table Int Value := ⟨[(1, .bytes []), (2, .bytes [])], by decide⟩
  let u : Table Int Value := ⟨[(2, .bytes []), (1, .bytes [])], by decide⟩
  have hsame : (annotated unknown t).SameParts (annotated unknown u) :=
    sameParts_annotated (.swap ..)
  have hnone : ∀ c : Codec, c.SoleFault [] := fun c => nofun
  have hsole : (annotated unknown t).SoleFaults := by
    refine ⟨⟨soleFault_of_written ?_, hnone _, hnone _⟩, nofun, ⟨hnone _, hnone _, hnone _,
      ⟨hnone _, hnone _, nofun, hnone _⟩, hnone _, nofun⟩, hnone _⟩
    show ∀ v ∈ [Value.int 1, Value.int 2], ∃ p, (Codec.uint 2).write v = .ok p
    simp only [List.forall_mem_cons]
    exact ⟨⟨[1, 0], by rw [write]; rfl⟩, ⟨[2, 0], by rw [write]; rfl⟩, List.forall_mem_nil _⟩
  obtain ⟨report, hreport⟩ := exists_report_annotated unknown t
  obtain ⟨hreproduced, hcounterparts⟩ := check_of_sameParts hsame
  have hreport' :=
    (hreproduced hsole ordinary_annotated.schema ordinary_annotated.types _).1 hreport
  obtain ⟨report', hreported, hpairs⟩ := (hcounterparts ordinary_annotated).2 report hreport
  cases hreported.unique hreport'
  exact ⟨_, _, report, rfl, rfl, hsame, hsole, hreport, hreport', hpairs⟩

/-- The violation of a metadata type that is no unsigned integer of two bytes. -/
def unfit (n : Int) : StrictError :=
  ⟨.doesNotFit n (Codec.uint 2).name, ["genesis", "metadata", entrySegment (Value.int n).label]⟩

/-- Of metadata types that are no unsigned integers of two bytes the first one is reported. -/
theorem report_annotated {n : Int} {v : Value} {rest : List (Int × Value)}
    (ht : t.entries = (n, v) :: rest)
    (hn : (Codec.uint 2).write (.int n) = fail (.doesNotFit n (Codec.uint 2).name)) {report : Report}
    (hreport : (annotated schemaId t).check.Yields (.ok report)) :
    report.violations.head? = some (unfit n) := by
  have hmetadata : OperationState.metadataCodec.write (t.toValue id) =
      .error (.strict ⟨.doesNotFit n (Codec.uint 2).name, [entrySegment (Value.int n).label]⟩) := by
    rw [Table.toValue, ht, OperationState.metadataCodec, write_mapping_eq, List.map_cons,
      List.mapM_cons, hn]
    rfl
  have hgenesis : (Operation.genesis (annotated schemaId t).genesis).encode =
      .error (.strict (unfit n)) := by
    rw [Operation.encode, Operation.codec, Operation.toValue, Genesis.toValue, write_union_record,
      writeAccepted]
    simp [accepts, annotated, smallestGenesis, Genesis.codec, write_record, writeFields, ok_bind,
      write_id, write_smallestTimestamp, write_smallestIssuer, write_bitcoinMainnet,
      write_firstOpretOrTapret, OperationState.metadataValue, hmetadata, Value.field, Value.feature?,
      List.lookup_cons]
    rfl
  obtain ⟨octets, hschema⟩ := exists_encode_smallestSchema
  have hfaults : (annotated schemaId t).faults = .ok [unfit n] := by
    have hrecords : (annotated schemaId t).records =
        [("schema", .ok octets), ("", .error (.strict (unfit n)))] := by
      rw [records, hgenesis]
      show [("schema", smallestSchema.encode), _] = _
      rw [hschema]
    rw [faults, hrecords]
    rfl
  -- faults come first in a report
  have hcheck := (annotated schemaId t).check_yields_faults
  rw [hfaults] at hcheck
  obtain ⟨found, hfound, rfl⟩ := map_eq_ok.1 (hcheck.unique hreport)
  obtain ⟨rest, -, hrest⟩ := bind_eq_ok.1 (show ((annotated schemaId t).otherFindings _ >>= _) = _ from
    hfound)
  cases hrest
  rfl

/-- Two metadata types without an encoding in two orders: the reports differ. -/
theorem check_depends_on_order : ∃ (c d : Consignment) (report report' : Report), c.SameParts d ∧
    c.Ordinary ∧ c.check.Yields (.ok report) ∧ d.check.Yields (.ok report') ∧
      report.violations ≠ report'.violations := by
  let unknown : SchemaId := zeroId .schema
  let t : Table Int Value := ⟨[(70000, .bytes []), (-1, .bytes [])], by decide⟩
  let u : Table Int Value := ⟨[(-1, .bytes []), (70000, .bytes [])], by decide⟩
  obtain ⟨report, hreport⟩ := exists_report_annotated unknown t
  obtain ⟨report', hreport'⟩ := exists_report_annotated unknown u
  refine ⟨annotated unknown t, annotated unknown u, report, report', sameParts_annotated (.swap ..),
    ordinary_annotated, hreport, hreport', fun heq => ?_⟩
  have hfirst := report_annotated rfl (by rw [write]; rfl) hreport
  have hfirst' := report_annotated rfl (by rw [write]; rfl) hreport'
  rw [heq, hfirst'] at hfirst
  cases hfirst

end Consignment

end StrictContract
