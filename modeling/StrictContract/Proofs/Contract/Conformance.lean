import StrictContract.Contract.Conformance
import StrictContract.Proofs.Journal
import StrictContract.Proofs.Table

/-! # Conformance — when a check finds nothing

An operation **conforms** to a shape when its fields are allowed, declared, within their bounds and
encodings of their types. The check of an operation finds nothing exactly then; where the operation
stands changes the places of violations, but never whether there are any. -/

namespace StrictContract

/-! ## Reports -/

/-- A check **passes** when it reports no violation. -/
def Logged.Passes (check : Logged Report) : Prop := Yields check (.ok ⟨[]⟩)

/-- A check that yields findings passes when there are none. -/
theorem Logged.Yields.passes_iff {check : Logged Report} {x : Except Failure (List StrictError)}
    (h : Logged.Yields check (Report.mk <$> x)) : check.Passes ↔ x = .ok [] := by
  constructor
  · intro hpasses
    obtain ⟨found, hfound, hreport⟩ := map_eq_ok.1 (h.unique hpasses)
    rw [hfound, Report.mk.inj hreport]
  · rintro rfl
    exact h

/-- The findings of a loop are empty when those of every round are. -/
theorem exists_mapM_flatten_eq_nil {α β : Type} {f : α → Except Failure (List β)} {xs : List α} :
    (∃ found, xs.mapM f = .ok found ∧ found.flatten = []) ↔ ∀ x ∈ xs, f x = .ok [] := by
  simp only [List.flatten_eq_nil_iff]
  constructor
  · rintro ⟨found, hfound, hnil⟩
    obtain ⟨ps, rfl, rfl, hps⟩ := mapM_eq_ok.1 hfound
    refine List.forall_mem_map.2 fun q hq => ?_
    rw [hps q hq, hnil _ (List.mem_map_of_mem hq)]
  · intro hxs
    refine ⟨xs.map fun _ => [], mapM_eq_ok.2 ⟨xs.map fun x => (x, []), ?_, ?_, ?_⟩, ?_⟩
    · rw [List.map_map]
      exact (List.map_id xs).symm
    · rw [List.map_map]
      rfl
    · exact List.forall_mem_map.2 hxs
    · exact List.forall_mem_map.2 fun _ _ => rfl

/-- A loop of which the findings are collected finds nothing when no round does. -/
theorem flatten_mapM_eq_ok_nil {α β : Type} {f : α → Except Failure (List β)} {xs : List α}
    {rest : List β} :
    (do return (← xs.mapM f).flatten ++ rest) = .ok [] ↔ (∀ x ∈ xs, f x = .ok []) ∧ rest = [] := by
  simp only [bind_eq_ok, pure_eq_ok, List.append_eq_nil_iff, ← and_assoc, exists_and_right,
    exists_mapM_flatten_eq_nil]

/-- What holds of all items of a list holds of them with their positions. -/
theorem forall_mem_zipIdx_fst {α : Type} {P : α → Prop} {items : List α} :
    (∀ x ∈ items.zipIdx, P x.1) ↔ ∀ a ∈ items, P a := by
  rw [← List.forall_mem_map, List.zipIdx_map_fst]

/-- The sorted entries of a table are its entries. -/
theorem Table.mem_sorted {κ α : Type} {le : κ → κ → Bool} {t : Table κ α} {e : κ × α} :
    e ∈ t.sorted le ↔ e ∈ t.entries :=
  (List.mergeSort_perm ..).mem_iff

/-! ## Values -/

/-- A type system **accepts** a state value for a type that it holds when the value is an encoding of
the type. -/
def TypeSystem.Accepts (types : TypeSystem) (sid : SemId) (v : Value) : Prop :=
  types.contains sid = true ∧ ∃ w, (do (← types.codecOf sid).decodeState v) = .ok w

/-- A state value has no violation when it is accepted. -/
theorem valueViolations_eq_ok_nil {types : TypeSystem} {sid : SemId} {v : Value} {path : String} :
    valueViolations types sid v path = .ok [] ↔ types.Accepts sid v := by
  rw [valueViolations, TypeSystem.Accepts]
  by_cases hin : types.contains sid = true
  · rw [hin]
    cases hdecode : (do (← types.codecOf sid).decodeState v) with
    | ok w => simp [pure_eq_ok]
    | error e => cases e <;> simp [pure_eq_ok]
  · simp [hin, pure_eq_ok]

/-- A number of occurrences has no violation when it is within the bound. -/
theorem countViolations_eq_nil {path : String} {o : Occurrences} {count : Nat} :
    countViolations path o count = [] ↔ o.admits count = true := by
  unfold countViolations
  split <;> simp_all

/-! ## Operations -/

/-- An assignment **fits** a declaration when it is not relative to a witness, which a genesis has not
got, and when structured state is accepted. -/
def Assignment.Fits (genesis : Bool) (types : TypeSystem) (declared : StateSchema)
    (a : Assignment) : Prop :=
  (genesis = true → ∀ definition state, a = .revealed definition state →
    definition.transaction ≠ none) ∧
  ∀ sid, declared = .structured sid → types.Accepts sid a.state

namespace Operation

variable {o : Operation} {c : Context}

/-- An operation **conforms** to a shape under a schema and a type system. -/
structure Conforms (o : Operation) (s : Schema) (types : TypeSystem) (shape : OperationSchema) :
    Prop where
  /-- Metadata are allowed, declared and encodings of their types. -/
  metadata : ∀ e ∈ o.state.metadata.entries, ∃ d, shape.metadata.contains e.1 = true ∧
    s.metaTypes.get? e.1 = some d ∧ types.Accepts d.type e.2
  metadataCounts : ∀ e ∈ shape.metadata.entries,
    e.2.admits (if o.state.metadata.contains e.1 then 1 else 0) = true
  /-- Global state is allowed, declared, not too long and made of encodings of its types. -/
  globals : ∀ e ∈ o.state.globals.entries, ∃ d, shape.globals.contains e.1 = true ∧
    s.globalTypes.get? e.1 = some d ∧ e.2.length ≤ d.maxItems ∧
    ∀ value ∈ e.2, types.Accepts d.type value
  globalCounts : ∀ e ∈ shape.globals.entries,
    e.2.admits ((o.state.globals.get? e.1).getD []).length = true
  /-- Where inputs are declared, they are of allowed and declared types. -/
  inputs : ∀ bounds, shape.inputs = some bounds → ∀ input ∈ o.inputs,
    bounds.contains input.type = true ∧ s.ownedTypes.contains input.type = true
  inputCounts : ∀ bounds, shape.inputs = some bounds → ∀ e ∈ bounds.entries,
    e.2.admits (o.inputCount e.1) = true
  /-- Assignments are allowed, declared, of the declared kind, and fit their declarations. -/
  assignments : ∀ e ∈ o.state.assignments.entries, ∃ d, shape.assignments.contains e.1 = true ∧
    s.ownedTypes.get? e.1 = some d ∧ e.2.kind = d.state.kind ∧
    ∀ a ∈ e.2.items, a.Fits o.isGenesis types d.state
  assignmentCounts : ∀ e ∈ shape.assignments.entries,
    e.2.admits (((o.state.assignments.get? e.1).map fun a => a.items.length).getD 0) = true

/-- Metadata have no violation when they conform. -/
theorem metadataViolations_eq_ok_nil :
    o.metadataViolations c = .ok [] ↔
      (∀ e ∈ o.state.metadata.entries, ∃ d, c.shape.metadata.contains e.1 = true ∧
        c.schema.metaTypes.get? e.1 = some d ∧ c.types.Accepts d.type e.2) ∧
      ∀ e ∈ c.shape.metadata.entries,
        e.2.admits (if o.state.metadata.contains e.1 then 1 else 0) = true := by
  rw [metadataViolations, flatten_mapM_eq_ok_nil]
  simp only [Table.mem_sorted, List.flatMap_eq_nil_iff, Prod.forall, countViolations_eq_nil]
  refine and_congr_left' (forall₃_congr fun type value _ => ?_)
  unfold Table.contains
  cases c.shape.metadata.get? type <;> cases c.schema.metaTypes.get? type <;>
    simp [valueViolations_eq_ok_nil]

/-- The items of one global type have no violation when there are not too many of them and each is
accepted. -/
theorem globalViolations_eq_ok_nil {d : GlobalDetails} {path : String} {items : List Value} :
    globalViolations c d path items = .ok [] ↔
      items.length ≤ d.maxItems ∧ ∀ value ∈ items, c.types.Accepts d.type value := by
  rw [globalViolations]
  simp only [bind_eq_ok, pure_eq_ok, List.append_eq_nil_iff, and_left_comm, exists_and_left,
    exists_mapM_flatten_eq_nil, valueViolations_eq_ok_nil]
  rw [forall_mem_zipIdx_fst (P := fun value => c.types.Accepts d.type value)]
  refine and_congr_left' ?_
  split
  · simp_all
  · simp_all

/-- Global state has no violation when it conforms. -/
theorem globalsViolations_eq_ok_nil :
    o.globalsViolations c = .ok [] ↔
      (∀ e ∈ o.state.globals.entries, ∃ d, c.shape.globals.contains e.1 = true ∧
        c.schema.globalTypes.get? e.1 = some d ∧ e.2.length ≤ d.maxItems ∧
        ∀ value ∈ e.2, c.types.Accepts d.type value) ∧
      ∀ e ∈ c.shape.globals.entries,
        e.2.admits ((o.state.globals.get? e.1).getD []).length = true := by
  rw [globalsViolations, flatten_mapM_eq_ok_nil]
  simp only [Table.mem_sorted, List.flatMap_eq_nil_iff, Prod.forall, countViolations_eq_nil]
  refine and_congr_left' (forall₃_congr fun type items _ => ?_)
  unfold Table.contains
  cases c.shape.globals.get? type <;> cases c.schema.globalTypes.get? type <;>
    simp [globalViolations_eq_ok_nil]

/-- One assignment has no violation when its seal is allowed and its state is accepted. -/
theorem assignmentViolations_eq_ok_nil {state : StateSchema} {path : String} {a : Assignment} :
    o.assignmentViolations c state path a = .ok [] ↔ a.Fits o.isGenesis c.types state := by
  unfold assignmentViolations Assignment.Fits
  cases o <;> cases a <;> cases state <;>
    simp [isGenesis, Assignment.state, map_eq_ok, valueViolations_eq_ok_nil]
  exact and_comm

/-- The assignments of one declared type have no violation when they are of its kind and none of them
has one. -/
theorem typeViolations_eq_ok_nil {state : StateSchema} {path : String} {a : Assignments} :
    o.typeViolations c state path a = .ok [] ↔
      a.kind = state.kind ∧ ∀ x ∈ a.items, x.Fits o.isGenesis c.types state := by
  rw [typeViolations]
  by_cases hkind : a.kind = state.kind
  · simp only [hkind, ne_eq, not_true_eq_false, if_false, true_and, bind_eq_ok, pure_eq_ok]
    rw [exists_mapM_flatten_eq_nil]
    simp only [assignmentViolations_eq_ok_nil, Assignments.positioned, List.forall_mem_map]
    exact forall_mem_zipIdx_fst (P := fun x : Assignment => x.Fits o.isGenesis c.types state)
  · simp [hkind, pure_eq_ok]

/-- Assignments have no violation when they conform. -/
theorem assignmentsViolations_eq_ok_nil :
    o.assignmentsViolations c = .ok [] ↔
      (∀ e ∈ o.state.assignments.entries, ∃ d, c.shape.assignments.contains e.1 = true ∧
        c.schema.ownedTypes.get? e.1 = some d ∧ e.2.kind = d.state.kind ∧
        ∀ a ∈ e.2.items, a.Fits o.isGenesis c.types d.state) ∧
      ∀ e ∈ c.shape.assignments.entries,
        e.2.admits (((o.state.assignments.get? e.1).map fun a => a.items.length).getD 0) = true := by
  rw [assignmentsViolations, flatten_mapM_eq_ok_nil]
  simp only [Table.mem_sorted, List.flatMap_eq_nil_iff, Prod.forall, countViolations_eq_nil]
  refine and_congr_left' (forall₃_congr fun type a _ => ?_)
  unfold Table.contains
  cases c.shape.assignments.get? type <;> cases c.schema.ownedTypes.get? type <;>
    simp [typeViolations_eq_ok_nil]

/-- Inputs have no violation when they conform. -/
theorem inputsViolations_eq_nil {bounds : Table Int Occurrences} :
      o.inputsViolations c bounds = [] ↔
      (∀ input ∈ o.inputs, bounds.contains input.type = true ∧
        c.schema.ownedTypes.contains input.type = true) ∧
      ∀ e ∈ bounds.entries, e.2.admits (o.inputCount e.1) = true := by
  rw [inputsViolations]
  simp only [List.append_eq_nil_iff, List.flatMap_eq_nil_iff, Table.mem_sorted, Prod.forall,
    countViolations_eq_nil, (List.mergeSort_perm ..).mem_iff]
  refine and_congr_left' ?_
  simp [mem_distinct]

/-- The fields of an operation have no violation when it conforms. -/
theorem fieldViolations_eq_ok_nil :
    o.fieldViolations c = .ok [] ↔ o.Conforms c.schema c.types c.shape := by
  rw [fieldViolations]
  simp only [bind_eq_ok, pure_eq_ok, List.append_eq_nil_iff]
  constructor
  · rintro ⟨_, hmetadata, _, hglobals, _, hassignments, ⟨⟨rfl, rfl⟩, hinputs⟩, rfl⟩
    obtain ⟨hmetadata, hmetadataCounts⟩ := metadataViolations_eq_ok_nil.1 hmetadata
    obtain ⟨hglobals, hglobalCounts⟩ := globalsViolations_eq_ok_nil.1 hglobals
    obtain ⟨hassignments, hassignmentCounts⟩ := assignmentsViolations_eq_ok_nil.1 hassignments
    have hdeclared : ∀ bounds, c.shape.inputs = some bounds → o.inputsViolations c bounds = [] := by
      intro bounds hbounds
      rwa [hbounds] at hinputs
    exact ⟨hmetadata, hmetadataCounts, hglobals, hglobalCounts,
      fun bounds hbounds => (inputsViolations_eq_nil.1 (hdeclared bounds hbounds)).1,
      fun bounds hbounds => (inputsViolations_eq_nil.1 (hdeclared bounds hbounds)).2,
      hassignments, hassignmentCounts⟩
  · intro h
    refine ⟨[], metadataViolations_eq_ok_nil.2 ⟨h.metadata, h.metadataCounts⟩, [],
      globalsViolations_eq_ok_nil.2 ⟨h.globals, h.globalCounts⟩, [],
      assignmentsViolations_eq_ok_nil.2 ⟨h.assignments, h.assignmentCounts⟩, ⟨⟨rfl, rfl⟩, ?_⟩, rfl⟩
    cases hbounds : c.shape.inputs with
    | none => rfl
    | some bounds =>
      exact inputsViolations_eq_nil.2 ⟨h.inputs bounds hbounds, h.inputCounts bounds hbounds⟩

/-- The violations that the check of an operation reports. -/
def findings (o : Operation) (s : Schema) (types : TypeSystem) (path : String) :
    Except Failure (List StrictError) :=
  match o with
  | genesis _ => o.fieldViolations ⟨s, types, s.genesis, path⟩
  | transition t => do
    match ← s.transitionShape? t.type with
    | some shape => o.fieldViolations ⟨s, types, shape, path⟩
    | none =>
      return [.of (path ++ ".transition_type")
        (.undeclaredTransition t.type.display s.name.display)]

/-- The check of an operation's fields reports their violations. -/
theorem validateFields_yields (o : Operation) (c : Context) :
    (o.validateFields c).Yields (Report.mk <$> o.fieldViolations c) := by
  refine .bind (.lift _) fun found => ?_
  dsimp only
  split
  · exact .andThen (.log _) (.pure _)
  · exact .pure _

/-- The check of an operation reports its findings. -/
theorem validate_yields (o : Operation) (s : Schema) (types : TypeSystem) (path : String) :
    (o.validate s types path).Yields (Report.mk <$> o.findings s types path) := by
  cases o with
  | genesis g => exact validateFields_yields _ _
  | transition t =>
    rw [findings, map_bind]
    refine .bind (.lift _) ?_
    rintro (_ | shape)
    · exact .pure _
    · exact validateFields_yields _ _

/-- The operations that conform to a schema: a genesis to the shape of geneses, a transition to the
shape of its type, which has to be declared. -/
def ConformsTo (o : Operation) (s : Schema) (types : TypeSystem) : Prop :=
  match o with
  | genesis _ => o.Conforms s types s.genesis
  | transition t => ∃ shape, s.transitionShape? t.type = .ok (some shape) ∧ o.Conforms s types shape

/-- An operation has no findings when it conforms, wherever it stands. -/
theorem findings_eq_ok_nil {s : Schema} {types : TypeSystem} {path : String} :
    o.findings s types path = .ok [] ↔ o.ConformsTo s types := by
  cases o with
  | genesis g => exact fieldViolations_eq_ok_nil
  | transition t =>
    rw [findings, ConformsTo, bind_eq_ok]
    constructor
    · rintro ⟨_ | shape, hshape, h⟩
      · cases pure_eq_ok.1 h
      · exact ⟨shape, hshape, fieldViolations_eq_ok_nil.1 h⟩
    · rintro ⟨shape, hshape, h⟩
      exact ⟨some shape, hshape, fieldViolations_eq_ok_nil.2 h⟩

/-- The check of an operation passes when it conforms, wherever it stands. -/
theorem passes_validate_iff {s : Schema} {types : TypeSystem} {path : String} :
    (o.validate s types path).Passes ↔ o.ConformsTo s types := by
  rw [(o.validate_yields s types path).passes_iff, findings_eq_ok_nil]

end Operation

end StrictContract
