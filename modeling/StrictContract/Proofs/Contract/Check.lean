import StrictContract.Contract.Check
import StrictContract.Proofs.Contract.Bundle
import StrictContract.Proofs.Contract.Conformance

/-! # Checking consignments — what it means that nothing is found

The check of a consignment finds nothing exactly when the consignment is **consistent**: everything
in it has an encoding, every identifier is the recomputed one, schema and operations conform, and
every input, terminal and script place leads to what it names. A consignment is assembled exactly
then, and otherwise rejected with what was found. -/

namespace StrictContract

/-! ## Findings -/

/-- The check of a schema reports its violations. -/
theorem Schema.validate_yields (s : Schema) (types : TypeSystem) :
    (s.validate types).Yields (.ok ⟨s.violations types⟩) := by
  rw [validate]
  dsimp only
  split
  · exact .andThen (.log _) (.pure _)
  · exact .pure _

/-- The check of a schema passes when the schema has no violation. -/
theorem Schema.passes_validate_iff {s : Schema} {types : TypeSystem} :
    (s.validate types).Passes ↔ s.violations types = [] := by
  have h : (s.validate types).Yields (Report.mk <$> .ok (s.violations types)) :=
    s.validate_yields types
  rw [h.passes_iff, Except.ok.injEq]

/-- Reports that are made one by one are those of the findings. -/
theorem mapM_report {α : Type} (f : α → Except Failure (List StrictError)) (xs : List α) :
    xs.mapM (fun x => Report.mk <$> f x) = List.map Report.mk <$> xs.mapM f := by
  induction xs with
  | nil => rfl
  | cons x xs ih =>
    rw [List.mapM_cons, List.mapM_cons, ih]
    cases f x with
    | error e => rfl
    | ok found => cases xs.mapM f <;> rfl

/-- Joining reports joins their violations. -/
theorem Report.join_map_mk (found : List (List StrictError)) :
    join (found.map mk) = ⟨found.flatten⟩ := by
  rw [join, List.flatMap_map, List.flatMap_id']

namespace Consignment

/-- The violation of a genesis that names another schema. -/
def referenceViolations (c : Consignment) (ix : ConsignmentIndex) : List StrictError :=
  match ix.schemaId with
  | some id =>
    if c.genesis.schemaId = id then []
    else [.of "genesis.schema_id" (.schemaReference c.genesis.schemaId.text id.text)]
  | none => []

/-- The violations of the genesis and the schema. -/
def genesisFindings (c : Consignment) (ix : ConsignmentIndex) :
    Except Failure (List StrictError) := do
  let operation ← (Operation.genesis c.genesis).findings c.schema c.types "genesis"
  return c.referenceViolations ix ++ c.schema.violations c.types ++ operation

/-- The violation of a transition that is carried under another id than its own. -/
def carriedViolations (bundle : String) (t : IndexedTransition) : List StrictError :=
  match t.opId with
  | some id =>
    if t.key = id then []
    else [.of (transitionPath bundle t.key) (.carriedOperation t.key.text id.text)]
  | none => []

/-- The violation of a transition that names another contract. -/
def contractViolations (ix : ConsignmentIndex) (path : String) (t : IndexedTransition) :
    List StrictError :=
  match ix.contractId with
  | some id =>
    if t.transition.contractId = id then []
    else [.of (path ++ ".contract_id")
      (.contractReference t.transition.contractId.text id.text)]
  | none => []

/-- The violations of one transition of a bundle. -/
def transitionFindings (c : Consignment) (ix : ConsignmentIndex) (inputMap : Table Opout OpId)
    (bundle : String) (t : IndexedTransition) : Except Failure (List StrictError) := do
  let path := transitionPath bundle (t.opId.getD t.key)
  let operation ← (Operation.transition t.transition).findings c.schema c.types path
  let inputs := t.transition.sortedInputs.flatMap (inputViolations ix inputMap bundle path t.opId)
  return carriedViolations bundle t ++ contractViolations ix path t ++ operation ++ inputs

/-- The violations of the bundle at a position. -/
def bundleFindings (c : Consignment) (ix : ConsignmentIndex) (b : IndexedBundle) (i : Nat) :
    Except Failure (List StrictError) := do
  return (← b.transitions.mapM (c.transitionFindings ix b.inputMap (bundlePath i))).flatten

/-- The violations of a consignment, and its recomputed identifiers. -/
def findings (c : Consignment) : Except Failure (List StrictError × ConsignmentIndex) := do
  let (ix, errors) ← c.index
  let genesis ← c.genesisFindings ix
  let bundles ← ix.bundles.zipIdx.mapM fun (b, i) => c.bundleFindings ix b i
  let rest := c.terminalViolations ix ++ c.scriptViolations
  return (errors ++ genesis ++ bundles.flatten ++ rest, ix)

theorem checkGenesis_yields (c : Consignment) (ix : ConsignmentIndex) :
    (c.checkGenesis ix).Yields (Report.mk <$> c.genesisFindings ix) := by
  have h := Logged.Yields.bind (c.schema.validate_yields c.types) fun schema =>
    .bind ((Operation.genesis c.genesis).validate_yields c.schema c.types "genesis") fun operation =>
      .pure (⟨c.referenceViolations ix⟩ ++ schema ++ operation)
  intro written
  refine (h written).trans ?_
  rw [genesisFindings]
  cases (Operation.genesis c.genesis).findings c.schema c.types "genesis" <;> rfl

theorem checkTransition_yields (c : Consignment) (ix : ConsignmentIndex)
    (inputMap : Table Opout OpId) (bundle : String) (t : IndexedTransition) :
    (c.checkTransition ix inputMap bundle t).Yields
      (Report.mk <$> c.transitionFindings ix inputMap bundle t) := by
  have h := Logged.Yields.bind ((Operation.transition t.transition).validate_yields c.schema c.types
    (transitionPath bundle (t.opId.getD t.key))) fun operation =>
      .pure (⟨carriedViolations bundle t ++ contractViolations ix
        (transitionPath bundle (t.opId.getD t.key)) t⟩ ++ operation ++
        ⟨t.transition.sortedInputs.flatMap (inputViolations ix inputMap bundle
          (transitionPath bundle (t.opId.getD t.key)) t.opId)⟩)
  intro written
  refine (h written).trans ?_
  rw [transitionFindings]
  cases (Operation.transition t.transition).findings c.schema c.types
    (transitionPath bundle (t.opId.getD t.key)) <;> rfl

theorem checkBundle_yields (c : Consignment) (ix : ConsignmentIndex) (b : IndexedBundle) (i : Nat) :
    (c.checkBundle ix b i).Yields (Report.mk <$> c.bundleFindings ix b i) := by
  have h := Logged.Yields.bind (.mapM (c.checkTransition_yields ix b.inputMap (bundlePath i))
    b.transitions) fun reports => .pure (Report.join reports)
  intro written
  refine (h written).trans ?_
  rw [mapM_report, bundleFindings]
  cases b.transitions.mapM (c.transitionFindings ix b.inputMap (bundlePath i)) with
  | error e => rfl
  | ok found => exact congrArg Except.ok (Report.join_map_mk found)

/-- The checks of the bundles report their findings. -/
theorem checkBundles_yields (c : Consignment) (ix : ConsignmentIndex) :
    Logged.Yields (ix.bundles.zipIdx.mapM fun (b, i) => c.checkBundle ix b i)
      (List.map Report.mk <$> ix.bundles.zipIdx.mapM fun (b, i) => c.bundleFindings ix b i) := by
  rw [← mapM_report]
  refine .mapM ?_ _
  rintro ⟨b, i⟩
  exact c.checkBundle_yields ix b i

/-- The check of a consignment with its recomputed identifiers reports its findings. -/
theorem checkIndexed_yields (c : Consignment) :
    c.checkIndexed.Yields ((fun (found, ix) => (⟨found⟩, ix)) <$> c.findings) := by
  rw [checkIndexed, findings, map_bind]
  refine .bind (.lift _) ?_
  rintro ⟨ix, errors⟩
  have h := Logged.Yields.bind (c.checkGenesis_yields ix) fun genesis =>
    .bind (c.checkBundles_yields ix) fun bundles =>
      .pure (⟨errors⟩ ++ genesis ++ Report.join bundles ++
        ⟨c.terminalViolations ix ++ c.scriptViolations⟩, ix)
  dsimp only
  intro written
  refine (h written).trans ?_
  cases c.genesisFindings ix with
  | error e => rfl
  | ok genesis =>
    cases ix.bundles.zipIdx.mapM fun (b, i) => c.bundleFindings ix b i with
    | error e => rfl
    | ok bundles =>
      refine congrArg Except.ok (Prod.ext ?_ rfl)
      rw [Report.join_map_mk]
      rfl

/-- The check of a consignment reports its findings. -/
theorem check_yields (c : Consignment) :
    c.check.Yields ((fun (found, _) => ⟨found⟩) <$> c.findings) := by
  have h := Logged.Yields.bind c.checkIndexed_yields fun x => .pure x.1
  intro written
  refine (h written).trans ?_
  cases c.findings <;> rfl

/-- The check of a consignment passes when there are no findings. -/
theorem passes_iff_findings {c : Consignment} : c.check.Passes ↔ ∃ ix, c.findings = .ok ([], ix) := by
  constructor
  · intro h
    obtain ⟨⟨found, ix⟩, hfound, hreport⟩ := map_eq_ok.1 (c.check_yields.unique h)
    exact ⟨ix, by rw [hfound, Report.mk.inj hreport]⟩
  · rintro ⟨ix, hfound⟩
    have h := c.check_yields
    rw [hfound] at h
    exact h

end Consignment

end StrictContract
