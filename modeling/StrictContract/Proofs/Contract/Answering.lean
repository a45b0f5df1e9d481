import StrictContract.Proofs.Codec.Answering
import StrictContract.Proofs.Contract.Recomputing

/-! # Answered records — a record has an encoding or a fault

The parts of contract records are numbers, identifiers, byte strings and values that are **supplied**
from outside: they may be of any type. If the supplied values of a consignment are ordinary, each of
its records is answered by its codec, with its bytes or with a strict error. So recomputing the
identifiers of the consignment never fails: what has no encoding is reported as a fault. -/

namespace StrictContract

open Codec

/-! ## Parts -/

/-- A member is ordinary when its enumeration leaves it its abilities. -/
theorem ordinary_member {decl : Enumeration} {name : String} {tag : Int}
    (hable : ∀ ability ∈ Value.abilities, decl.lacks ability = false)
    (hshown : decl.lacks "__repr__" = false) (hclass : decl.lacks "__class__" = false) :
    (Value.member decl name tag).Ordinary := by
  refine ⟨hable, ?_⟩
  rw [Value.unshown?, hshown, hclass]
  rfl

theorem hasLabel_id {kind : IdKind} (x : Id kind) : (Value.id kind x).HasLabel := ⟨_, rfl⟩

theorem Opout.hasLabel (o : Opout) : o.toValue.HasLabel := ⟨_, rfl⟩

theorem Opout.answers (o : Opout) : codec.Answers o.toValue :=
  answers_record (by decide) ⟨rfl, answers_id _ _, rfl, answers_uint (ordinary_int _) _, rfl,
    answers_uint (ordinary_int _) _, trivial⟩

/-- The mappings of tables with labelled keys are answered when keys and values are. -/
theorem answers_mapping {κ α : Type} {key value : Codec} {b : Bounds} {label : Option String}
    {f : κ → Value} {g : α → Value} {t : Table κ α} (hkey : ∀ k, key.Answers (f k))
    (hlabel : ∀ k, (f k).HasLabel) (hvalue : ∀ e ∈ t.entries, value.Answers (g e.2)) :
    (map key value b .mapping label).Answers (t.mapping f g) :=
  answers_map (List.forall_mem_map.2 fun e he => ⟨hkey e.1, hlabel e.1, hvalue e he⟩)

/-- The mappings of tables by type number are answered when the values are. -/
theorem answers_table {α : Type} {value : Codec} {b : Bounds} {label : Option String}
    {g : α → Value} {t : Table Int α} (hvalue : ∀ e ∈ t.entries, value.Answers (g e.2)) :
    (map (.uint 2) value b .mapping label).Answers (t.toValue g) :=
  answers_mapping (fun k => answers_uint (ordinary_int k) _) hasLabel_int hvalue

/-! ## Operations -/

/-- The supplied values of a seal. -/
def Seal.supplied (s : Seal) : List Value := [s.vout, s.blinding]

theorem Seal.answers {s : Seal} (h : ∀ v ∈ s.supplied, v.Ordinary) : codec.Answers s.toValue := by
  have htransaction : (Codec.option (.id .transaction)).Answers
      (.ofOption (.id .transaction) s.transaction) :=
    answers_option fun _ => answers_id _ _
  refine answers_record (by simp) ⟨rfl, htransaction, rfl, answers_uint (h _ ?_) _, rfl,
    answers_uint (h _ ?_) _, trivial⟩
  · exact List.mem_cons_self ..
  · exact List.mem_cons_of_mem _ (List.mem_cons_self ..)

/-- State of every kind is answered. -/
theorem StateKind.answers (kind : StateKind) {v : Value} (hv : v.Ordinary) : kind.codec.Answers v := by
  cases kind with
  | declarative => exact answers_unit hv
  | fungible => exact answers_uint hv 8
  | structured => exact answers_bytes _ _ v

/-- The supplied values of an assignment. -/
def Assignment.supplied : Assignment → List Value
  | revealed definition state => state :: definition.supplied
  | confidential _ state => [state]

theorem Assignment.answers {kind : StateKind} {a : Assignment}
    (h : ∀ v ∈ a.supplied, v.Ordinary) : (codec kind).Answers a.toValue := by
  cases a with
  | revealed definition state =>
    obtain ⟨hstate, hdefinition⟩ := List.forall_mem_cons.1 h
    refine answers_union (List.forall_mem_cons.2 ⟨?_, List.forall_mem_singleton.2 fun _ => ?_⟩)
    · exact fun haccepts => absurd haccepts (by simp [accepts])
    · exact answers_record (by simp) ⟨rfl, Seal.answers hdefinition, rfl, kind.answers hstate, trivial⟩
  | confidential secret state =>
    have hstate := List.forall_mem_singleton.1 h
    refine answers_union (List.forall_mem_cons.2 ⟨fun _ => ?_, List.forall_mem_singleton.2 ?_⟩)
    · exact answers_record (by simp) ⟨rfl, answers_id _ _, rfl, kind.answers hstate, trivial⟩
    · exact fun haccepts => absurd haccepts (by simp [accepts])

/-- The supplied values of the assignments of one type. -/
def Assignments.supplied (a : Assignments) : List Value := a.items.flatMap Assignment.supplied

theorem Assignments.answers {a : Assignments} (h : ∀ v ∈ a.supplied, v.Ordinary) :
    codec.Answers a.toValue := by
  refine answers_union (List.forall_mem_map.2 ?_)
  rintro ⟨tag, kind⟩ - haccepts
  obtain rfl : kind = a.kind := recordName_inj (eq_of_beq haccepts)
  refine answers_record (by simp) ⟨rfl, answers_list (List.forall_mem_map.2 fun y hy => ?_), trivial⟩
  exact Assignment.answers fun v hv => h v (List.mem_flatMap.2 ⟨y, hy, hv⟩)

/-- The supplied values of the state of an operation. -/
def OperationState.supplied (s : OperationState) : List Value :=
  s.assignments.values.flatMap Assignments.supplied

namespace OperationState

theorem answers_metadata (s : OperationState) : metadataCodec.Answers s.metadataValue :=
  answers_table fun _ _ => answers_bytes _ _ _

theorem answers_globals (s : OperationState) : globalsCodec.Answers s.globalsValue :=
  answers_table fun _ _ => answers_list fun _ _ => answers_bytes _ _ _

theorem answers_assignments {s : OperationState} (h : ∀ v ∈ s.supplied, v.Ordinary) :
    assignmentsCodec.Answers s.assignmentsValue :=
  answers_table fun e he => Assignments.answers fun v hv =>
    h v (List.mem_flatMap.2 ⟨e.2, List.mem_map_of_mem he, hv⟩)

end OperationState

/-- The supplied values of a genesis. -/
def Genesis.supplied (g : Genesis) : List Value :=
  g.timestamp :: g.issuer :: g.chainNet :: g.closingStrategy :: g.state.supplied

theorem Genesis.answers {g : Genesis} (h : ∀ v ∈ g.supplied, v.Ordinary) :
    codec.Answers g.toValue := by
  simp only [supplied, List.forall_mem_cons] at h
  obtain ⟨htimestamp, -, hnet, hstrategy, hstate⟩ := h
  exact answers_record (by decide) ⟨rfl, answers_id _ _, rfl, answers_sint htimestamp _, rfl,
    answers_ascii _ _ _ _ _, rfl, answers_enumeration rfl rfl rfl hnet, rfl,
    answers_enumeration rfl rfl rfl hstrategy, rfl, g.state.answers_metadata, rfl,
    g.state.answers_globals, rfl, OperationState.answers_assignments hstate, trivial⟩

/-- The supplied values of a transition. -/
def Transition.supplied (t : Transition) : List Value := t.type :: t.nonce :: t.state.supplied

theorem Transition.answers {t : Transition} (h : ∀ v ∈ t.supplied, v.Ordinary) :
    codec.Answers t.toValue := by
  simp only [supplied, List.forall_mem_cons] at h
  obtain ⟨htype, hnonce, hstate⟩ := h
  have hinputs : (Codec.set Opout.codec .shortNonempty .members (some "Inputs")).Answers
      (.set (t.inputs.map Opout.toValue)) :=
    answers_set (List.forall_mem_map.2 fun o _ => ⟨o.answers, o.hasLabel⟩)
  exact answers_record (by decide) ⟨rfl, answers_id _ _, rfl, answers_uint htype _, rfl,
    answers_uint hnonce _, rfl, t.state.answers_metadata, rfl, t.state.answers_globals, rfl, hinputs,
    rfl, OperationState.answers_assignments hstate, trivial⟩

/-- The supplied values of an operation. -/
def Operation.supplied : Operation → List Value
  | genesis g => g.supplied
  | transition t => t.supplied

/-- Operations of ordinary values are answered. -/
theorem Operation.isStrict_encode {o : Operation} (h : ∀ v ∈ o.supplied, v.Ordinary) :
    IsStrict o.encode := by
  cases o with
  | genesis g =>
    refine answers_union (List.forall_mem_cons.2 ⟨fun _ => Genesis.answers h,
      List.forall_mem_singleton.2 ?_⟩)
    exact fun haccepts => absurd haccepts (by simp [accepts, Transition.codec])
  | transition t =>
    refine answers_union (List.forall_mem_cons.2 ⟨?_,
      List.forall_mem_singleton.2 fun _ => Transition.answers h⟩)
    exact fun haccepts => absurd haccepts (by simp [accepts, Genesis.codec])

/-! ## Schemas -/

theorem Occurrences.answers (o : Occurrences) : codec.Answers o.toValue :=
  answers_record (by decide) ⟨rfl, answers_uint (ordinary_int _) _, rfl,
    answers_uint (ordinary_int _) _, trivial⟩

theorem Occurrences.answers_table (t : Table Int Occurrences) :
    tableCodec.Answers (t.toValue toValue) :=
  StrictContract.answers_table fun e _ => e.2.answers

theorem LibSite.answers_option (s : Option LibSite) :
    (Codec.option codec).Answers (.ofOption toValue s) := by
  refine Codec.answers_option fun hnull => ?_
  cases s with
  | none => exact absurd rfl hnull
  | some s =>
    exact answers_record (by decide) ⟨rfl, answers_id _ _, rfl, answers_uint (ordinary_int _) _,
      trivial⟩

/-- The supplied values of a schema besides its names: the types of amounts. -/
def Schema.amounts (s : Schema) : List Value :=
  s.ownedTypes.values.flatMap fun d =>
    match d.state with
    | .fungible amount => [amount]
    | _ => []

theorem StateSchema.answers {s : StateSchema} (h : ∀ amount, s = .fungible amount → amount.Ordinary) :
    codec.Answers s.toValue := by
  -- of the three variants only that of the declaration accepts its record
  cases s <;> refine answers_union ?_ <;>
    simp only [List.forall_mem_cons, accepts, beq_iff_eq, String.reduceEq, false_implies,
      true_implies, true_and, List.not_mem_nil, implies_true, and_true]
  · exact answers_record (by decide) trivial
  · exact answers_record (by simp) ⟨rfl, answers_enumeration rfl rfl rfl (h _ rfl), trivial⟩
  · exact answers_record (by simp) ⟨rfl, answers_id _ _, trivial⟩

/-- Regular schemas with ordinary types of amounts are answered. -/
theorem Schema.isStrict_encode {s : Schema} (hs : s.Regular) (h : ∀ v ∈ s.amounts, v.Ordinary) :
    IsStrict s.encode := by
  have hgenesis : genesisCodec.Answers s.genesis.toValue := by
    rw [OperationSchema.toValue, hs.genesis]
    exact answers_record (by simp) ⟨rfl, Occurrences.answers_table _, rfl,
      Occurrences.answers_table _, rfl, Occurrences.answers_table _, rfl, LibSite.answers_option _,
      trivial⟩
  have htransition : ∀ e ∈ s.transitions.entries,
      transitionDetailsCodec.Answers (transitionDetailsValue e.2) := by
    intro e he
    have hshape : transitionCodec.Answers e.2.shape.toValue := by
      obtain ⟨inputs, hinputs⟩ := Option.isSome_iff_exists.1 (hs.transitions e he)
      rw [OperationSchema.toValue, hinputs]
      exact answers_record (by simp) ⟨rfl, Occurrences.answers_table _, rfl,
        Occurrences.answers_table _, rfl, Occurrences.answers_table _, rfl,
        Occurrences.answers_table _, rfl, LibSite.answers_option _, trivial⟩
    exact answers_record (by simp) ⟨rfl, hshape, rfl, answers_ascii _ _ _ _ _, trivial⟩
  have howned : ∀ e ∈ s.ownedTypes.entries, ownedCodec.Answers e.2.toValue := by
    intro e he
    refine answers_record (by simp) ⟨rfl, StateSchema.answers fun amount hamount => h amount ?_, rfl,
      answers_ascii _ _ _ _ _, trivial⟩
    exact List.mem_flatMap.2
      ⟨e.2, List.mem_map_of_mem he, by rw [hamount]; exact List.mem_singleton_self _⟩
  exact answers_record (by simp) ⟨rfl, answers_ascii _ _ _ _ _, rfl,
    answers_table fun _ _ => answers_record (by simp) ⟨rfl, answers_id _ _, rfl, answers_ascii _ _ _ _ _,
      trivial⟩, rfl,
    answers_table fun _ _ => answers_record (by simp) ⟨rfl, answers_id _ _, rfl,
      answers_uint (ordinary_int _) _, rfl, answers_ascii _ _ _ _ _, trivial⟩, rfl,
    answers_table howned, rfl, hgenesis, rfl, answers_table htransition, trivial⟩

/-! ## Bundles and consignments -/

theorem Bundle.answers_inputMap (b : Bundle) : inputMapCodec.Answers b.inputMapValue :=
  answers_mapping (f := Opout.toValue) (g := .id .operation) Opout.answers Opout.hasLabel
    fun _ _ => answers_id _ _

/-- The supplied values of a bundle. -/
def Bundle.supplied (b : Bundle) : List Value := b.known.values.flatMap Transition.supplied

/-- The supplied values of a known transition are those of its bundle. -/
theorem Bundle.mem_supplied {b : Bundle} {e : OpId × Transition} (he : e ∈ b.known.entries)
    {v : Value} (hv : v ∈ e.2.supplied) : v ∈ b.supplied :=
  List.mem_flatMap.2 ⟨e.2, List.mem_map_of_mem he, hv⟩

theorem Bundle.answers {b : Bundle} (h : ∀ v ∈ b.supplied, v.Ordinary) : codec.Answers b.toValue :=
  answers_record (by decide) ⟨rfl, b.answers_inputMap, rfl,
    answers_mapping (f := .id .operation) (g := Transition.toValue) (fun _ => answers_id _ _)
      hasLabel_id fun _ he => Transition.answers fun v hv => h v (Bundle.mem_supplied he hv), trivial⟩

theorem Witness.answers (w : Witness) : codec.Answers w.toValue := by
  cases w <;> refine answers_union ?_ <;>
    simp only [List.forall_mem_cons, accepts, beq_iff_eq, String.reduceEq, false_implies,
      true_implies, true_and, List.not_mem_nil, implies_true, and_true]
  · exact answers_record (by decide) ⟨rfl, answers_id _ _, trivial⟩
  · exact answers_record (by decide) ⟨rfl, answers_bytes _ _ _, trivial⟩

theorem WitnessBundle.answers {w : WitnessBundle} (h : ∀ v ∈ w.bundle.supplied, v.Ordinary) :
    codec.Answers w.toValue :=
  answers_record (by decide) ⟨rfl, w.witness.answers, rfl, Bundle.answers h, trivial⟩

namespace Consignment

/-- The supplied values of a consignment besides names. -/
def supplied (c : Consignment) : List Value :=
  c.version :: c.genesis.supplied ++ c.schema.amounts ++
    c.bundles.flatMap fun w => w.bundle.supplied

/-- A byte string is answered as a script library. -/
theorem answers_libraryBytes (code : Octets) : libraryCodec.Answers (.bytes code) := by
  have hbare : libraryCodec.write (.bytes code) =
      writeBare [("code", .bytes .shortNonempty (some "LibCode"))] (.bytes code) := by
    rw [libraryCodec, write]
    simp [accepts]
  rw [Answers, hbare, writeBare]
  exact (answers_bytes _ _ _).inside _

/-- A consignment of which the schema is regular, the type system well formed and all supplied values
ordinary. -/
structure Ordinary (c : Consignment) : Prop where
  schema : c.schema.Regular
  types : c.types.WellFormed
  supplied : ∀ v ∈ c.supplied, v.Ordinary

namespace Ordinary

variable {c : Consignment} (h : c.Ordinary)

include h

theorem supplied_genesis : ∀ v ∈ c.genesis.supplied, v.Ordinary := fun v hv =>
  h.supplied v (List.mem_append_left _ (List.mem_append_left _ (List.mem_cons_of_mem _ hv)))

theorem supplied_schema : ∀ v ∈ c.schema.amounts, v.Ordinary := fun v hv =>
  h.supplied v (List.mem_append_left _ (List.mem_append_right _ hv))

theorem supplied_bundle {w : WitnessBundle} (hw : w ∈ c.bundles) :
    ∀ v ∈ w.bundle.supplied, v.Ordinary := fun v hv =>
  h.supplied v (List.mem_append_right _ (List.mem_flatMap.2 ⟨w, hw, hv⟩))

/-- The whole consignment is answered. -/
theorem isStrict_encode : IsStrict c.encode := by
  have hversion : (Codec.enumeration versions).Answers c.version :=
    answers_enumeration rfl rfl rfl (h.supplied _ (List.mem_cons_self ..))
  have hterminals : terminalsCodec.Answers (c.terminals.mapping (.id .bundle) sealsValue) :=
    answers_mapping (fun _ => answers_id _ _) hasLabel_id fun _ _ =>
      answers_set (List.forall_mem_map.2 fun s _ => ⟨answers_id _ _, hasLabel_id s⟩)
  have hbundles : (Codec.list WitnessBundle.codec { min := 0, max := 0xffffff } none).Answers
      (.tuple (c.bundles.map WitnessBundle.toValue)) :=
    answers_list (List.forall_mem_map.2 fun _ hw => WitnessBundle.answers (h.supplied_bundle hw))
  have htypes : TypeSystem.codec.Answers c.types.toValue := by
    obtain ⟨octets, hoctets, -⟩ := h.types.exists_decode
    exact isStrict_of_exists ⟨octets, hoctets⟩
  have hscripts : (Codec.set libraryCodec .tiny .members none).Answers
      (.set (c.scripts.map .bytes)) :=
    answers_set (List.forall_mem_map.2 fun code _ => ⟨answers_libraryBytes code, ⟨_, rfl⟩⟩)
  exact answers_record (by decide) ⟨rfl, hversion, rfl, answers_bool _, rfl, hterminals, rfl,
    Genesis.answers h.supplied_genesis, rfl, hbundles, rfl,
    Schema.isStrict_encode h.schema h.supplied_schema, rfl, htypes, rfl, hscripts, trivial⟩

/-- Every record of an ordinary consignment is answered. -/
theorem isStrict_records : ∀ r ∈ c.records, IsStrict r.2 := by
  refine List.forall_mem_cons.2 ⟨Schema.isStrict_encode h.schema h.supplied_schema,
    List.forall_mem_cons.2 ⟨Operation.isStrict_encode (o := .genesis _) h.supplied_genesis, ?_⟩⟩
  intro r hr
  obtain ⟨⟨w, i⟩, hw, hr⟩ := List.mem_flatMap.1 hr
  have hw := List.fst_mem_of_mem_zipIdx hw
  rcases List.mem_cons.1 hr with rfl | hr
  · exact w.bundle.answers_inputMap
  · obtain ⟨e, he, rfl⟩ := List.mem_map.1 hr
    refine Operation.isStrict_encode (o := .transition _) fun v hv => h.supplied_bundle hw v ?_
    exact Bundle.mem_supplied (Table.mem_sorted.1 he) hv

end Ordinary

end Consignment

/-! ## Faults that are reported -/

/-- The fault of an answered record is found. -/
theorem exists_faultOf {α : Type} (path : String) {x : Except Failure α} (hx : IsStrict x) :
    ∃ found, faultOf path x = .ok found := by
  cases x with
  | ok a => exact ⟨[], rfl⟩
  | error f =>
    obtain ⟨e, rfl⟩ := hx f rfl
    exact ⟨_, rfl⟩

/-- The faults of answered records are found, those of every record. -/
theorem exists_faultsOf {rs : List (String × Except Failure Octets)} (hrs : ∀ r ∈ rs, IsStrict r.2) :
    ∃ found, faultsOf rs = .ok found ∧
      ∀ r ∈ rs, ∀ e, r.2 = .error (.strict e) → e.within r.1 ∈ found := by
  induction rs with
  | nil => exact ⟨[], rfl, nofun⟩
  | cons r rs ih =>
    rw [List.forall_mem_cons] at hrs
    obtain ⟨own, hown⟩ := exists_faultOf r.1 hrs.1
    obtain ⟨found, hfound, hmem⟩ := ih hrs.2
    refine ⟨own ++ found, by rw [faultsOf_cons, hown, hfound]; rfl, ?_⟩
    refine List.forall_mem_cons.2 ⟨fun e he => ?_, fun s hs e he => ?_⟩
    · rw [he] at hown
      cases hown
      exact List.mem_append_left _ (List.mem_singleton_self _)
    · exact List.mem_append_right _ (hmem s hs e he)

/-- The faults of an ordinary consignment are found: those of its records, and that of the consignment
if the records have none. -/
theorem Consignment.Ordinary.exists_faults {c : Consignment} (h : c.Ordinary) :
    ∃ found, c.faults = .ok found ∧
      (∀ r ∈ c.records, ∀ e, r.2 = .error (.strict e) → e.within r.1 ∈ found) ∧
      ((∀ r ∈ c.records, ∃ p, r.2 = .ok p) → ∀ e, c.encode = .error (.strict e) →
        e.within "" ∈ found) := by
  obtain ⟨found, hfound, hmem⟩ := exists_faultsOf h.isStrict_records
  have hown : ∃ own, c.ownFault found = .ok own := by
    unfold ownFault
    split
    · exact exists_faultOf "" h.isStrict_encode
    · exact ⟨[], rfl⟩
  obtain ⟨own, hown⟩ := hown
  refine ⟨found ++ own, by rw [faults, hfound, ok_bind, hown]; rfl, ?_, fun hall e he => ?_⟩
  · exact fun r hr e he => List.mem_append_left _ (hmem r hr e he)
  · obtain rfl := Except.ok.inj (hfound.symm.trans (faultsOf_eq_ok_nil.2 hall))
    rw [ownFault, he] at hown
    cases hown
    exact List.mem_singleton_self _

end StrictContract
