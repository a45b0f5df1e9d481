import StrictContract.Proofs.Contract.Acceptance

/-! # Recomputing — what a check reports of records without an encoding

The identifiers of a consignment commit to its **records**: the schema, the genesis, and the input map
and the known transitions of every bundle. The **fault** of a record is the violation that it has no
encoding, at the place of the record. Recomputing the identifiers of a consignment reports the faults
of its records in order, and the fault of the consignment itself if they have none. -/

namespace StrictContract

/-! ## Faults -/

section

variable {α β : Type}

/-- The fault of a record, if it has one; misuse stays a failure. -/
def faultOf (path : String) (x : Except Failure α) : Except Failure (List StrictError) :=
  match x with
  | .ok _ => .ok []
  | .error (.strict e) => .ok [e.within path]
  | .error f => .error f

/-- Recomputing gives the identifier, if there is one, and the fault. -/
theorem recompute_eq (path : String) (x : Except Failure α) :
    recompute path x = (fun found => (x.toOption, found)) <$> faultOf path x := by
  cases x with
  | ok a => rfl
  | error e => cases e <;> rfl

/-- What is made of a record has the fault of the record. -/
theorem faultOf_made (path : String) (x : Except Failure α) (f : α → β) :
    faultOf path (do return f (← x)) = faultOf path x := by
  cases x with
  | ok a => rfl
  | error e => cases e <;> rfl

/-- A record that has no fault has an encoding. -/
theorem faultOf_eq_ok_nil {path : String} {x : Except Failure α} :
    faultOf path x = .ok [] ↔ ∃ a, x = .ok a := by
  unfold faultOf
  split <;> simp

end

/-- A loop that collects what is known of its items along with what is found for them fails when the
search does, and otherwise collects both. -/
theorem mapM_known {α β γ : Type} (f : α → Except Failure (List γ)) (g : α → β) (xs : List α) :
    (∃ e, xs.mapM f = .error e ∧ (xs.mapM fun a => (fun found => (g a, found)) <$> f a) = .error e) ∨
      ∃ found items, xs.mapM f = .ok found ∧
        (xs.mapM fun a => (fun found => (g a, found)) <$> f a) = .ok items ∧
        items.map Prod.fst = xs.map g ∧ items.flatMap Prod.snd = found.flatten := by
  induction xs with
  | nil => exact .inr ⟨[], [], rfl, rfl, rfl, rfl⟩
  | cons a xs ih =>
    rw [List.mapM_cons, List.mapM_cons]
    cases f a with
    | error e => exact .inl ⟨e, rfl, rfl⟩
    | ok found =>
      rcases ih with ⟨e, hsearch, hloop⟩ | ⟨rest, items, hsearch, hloop, hfst, hsnd⟩
      · rw [hsearch, hloop]
        exact .inl ⟨e, rfl, rfl⟩
      · rw [hsearch, hloop]
        exact .inr ⟨_, _, rfl, rfl, congrArg (g a :: ·) hfst, congrArg (found ++ ·) hsnd⟩

/-- The faults of records, in order. -/
def faultsOf (records : List (String × Except Failure Octets)) : Except Failure (List StrictError) :=
  do return (← records.mapM fun r => faultOf r.1 r.2).flatten

theorem faultsOf_cons (r : String × Except Failure Octets) (rs : List (String × Except Failure Octets)) :
    faultsOf (r :: rs) = do return (← faultOf r.1 r.2) ++ (← faultsOf rs) := by
  rw [faultsOf, faultsOf, List.mapM_cons]
  cases faultOf r.1 r.2 with
  | error e => rfl
  | ok found => cases rs.mapM fun r => faultOf r.1 r.2 <;> rfl

theorem faultsOf_append (rs ss : List (String × Except Failure Octets)) :
    faultsOf (rs ++ ss) = do return (← faultsOf rs) ++ (← faultsOf ss) := by
  induction rs with
  | nil =>
    show faultsOf ss = _
    cases faultsOf ss <;> rfl
  | cons r rs ih =>
    rw [List.cons_append, faultsOf_cons, faultsOf_cons, ih]
    cases faultOf r.1 r.2 with
    | error e => rfl
    | ok found =>
      cases faultsOf rs with
      | error e => rfl
      | ok more =>
        cases faultsOf ss with
        | error e => rfl
        | ok rest => exact congrArg Except.ok (List.append_assoc ..).symm

theorem faultsOf_map {α : Type} (path : α → String) (x : α → Except Failure Octets) (xs : List α) :
    faultsOf (xs.map fun a => (path a, x a)) =
      do return (← xs.mapM fun a => faultOf (path a) (x a)).flatten := by
  rw [faultsOf, List.mapM_map]
  rfl

/-- The faults of a list of lists of records are those of the lists. -/
theorem faultsOf_flatMap {α : Type} (f : α → List (String × Except Failure Octets)) (xs : List α) :
    faultsOf (xs.flatMap f) = do return (← xs.mapM fun x => faultsOf (f x)).flatten := by
  induction xs with
  | nil => rfl
  | cons x xs ih =>
    rw [List.flatMap_cons, faultsOf_append, ih, List.mapM_cons]
    cases faultsOf (f x) with
    | error e => rfl
    | ok found => cases xs.mapM fun x => faultsOf (f x) <;> rfl

/-- Records have no fault when each has an encoding. -/
theorem faultsOf_eq_ok_nil {rs : List (String × Except Failure Octets)} :
    faultsOf rs = .ok [] ↔ ∀ r ∈ rs, ∃ p, r.2 = .ok p := by
  rw [faultsOf, bind_eq_ok]
  simp only [pure_eq_ok, exists_mapM_flatten_eq_nil, faultOf_eq_ok_nil]

/-! ## Records of a consignment -/

/-- The records of the bundle at a position, with their places. -/
def WitnessBundle.records (w : WitnessBundle) (i : Nat) : List (String × Except Failure Octets) :=
  (bundlePath i ++ ".input_map", Bundle.inputMapCodec.write w.bundle.inputMapValue) ::
    w.bundle.transitions.map fun e =>
      (transitionPath (bundlePath i) e.1, (Operation.transition e.2).encode)

/-- The records of a consignment, with their places. -/
def Consignment.records (c : Consignment) : List (String × Except Failure Octets) :=
  ("schema", c.schema.encode) :: ("", (Operation.genesis c.genesis).encode) ::
    c.bundles.zipIdx.flatMap fun x => x.1.records x.2

/-- The identifiers of a bundle are recomputed with the faults of its records. -/
theorem WitnessBundle.index_eq (w : WitnessBundle) (i : Nat) :
    w.index i = (fun found => (w.indexed, found)) <$> faultsOf (w.records i) := by
  have hround : ∀ e : OpId × Transition, indexTransition (bundlePath i) e.1 e.2 =
      (fun found => (⟨e.1, e.2.opId.toOption, e.2⟩, found)) <$>
        faultOf (transitionPath (bundlePath i) e.1) (Operation.transition e.2).encode := by
    intro e
    rw [indexTransition, recompute_eq, Transition.opId, Operation.opId, faultOf_made]
    cases faultOf (transitionPath (bundlePath i) e.1) (Operation.transition e.2).encode <;> rfl
  rw [index, recompute_eq, Bundle.bundleId, faultOf_made, records, faultsOf_cons, faultsOf_map]
  cases faultOf (bundlePath i ++ ".input_map") (Bundle.inputMapCodec.write w.bundle.inputMapValue) with
  | error e => rfl
  | ok errors =>
    simp only [hround]
    rcases mapM_known (fun e : OpId × Transition =>
      faultOf (transitionPath (bundlePath i) e.1) (Operation.transition e.2).encode)
      (fun e => (⟨e.1, e.2.opId.toOption, e.2⟩ : IndexedTransition)) w.bundle.transitions with
      ⟨e, hsearch, hloop⟩ | ⟨found, items, hsearch, hloop, hfst, hsnd⟩
    · simp only [hsearch, hloop]
      rfl
    · simp only [hsearch, hloop]
      exact congrArg Except.ok (Prod.ext
        (congrArg (IndexedBundle.mk w.bundle.bundleId.toOption w.bundle.inputMap) hfst)
        (congrArg (errors ++ ·) hsnd))

namespace Consignment

/-- The fault of a consignment itself, which is looked for when its records have none. -/
def ownFault (c : Consignment) (found : List StrictError) : Except Failure (List StrictError) :=
  if found.isEmpty then faultOf "" c.encode else .ok []

/-- The identifiers of a consignment are recomputed with the faults of its records, and with its own
fault when they have none. -/
theorem index_eq (c : Consignment) : c.index = do
    let found ← faultsOf c.records
    let own ← c.ownFault found
    return ({ c.indexed with
      consignmentId := if found.isEmpty then c.consignmentId.toOption else none }, found ++ own) := by
  have hschema : recompute "schema" c.schema.schemaId =
      (fun found => (c.schema.schemaId.toOption, found)) <$> faultOf "schema" c.schema.encode := by
    rw [recompute_eq, Schema.schemaId, faultOf_made]
  have hgenesis : recompute "" c.genesis.contractId = (fun found =>
      (c.genesis.contractId.toOption, found)) <$> faultOf "" (Operation.genesis c.genesis).encode := by
    rw [recompute_eq, Genesis.contractId, faultOf_made, Operation.opId, faultOf_made]
  have hown : recompute "" c.consignmentId =
      (fun found => (c.consignmentId.toOption, found)) <$> faultOf "" c.encode := by
    rw [recompute_eq, consignmentId, faultOf_made]
  -- both sides run through the same records, and the first misuse ends both
  rw [index, hschema, hgenesis, hown, records, faultsOf_cons, faultsOf_cons, faultsOf_flatMap]
  cases faultOf "schema" c.schema.encode with
  | error e => rfl
  | ok schemaFaults =>
  cases faultOf "" (Operation.genesis c.genesis).encode with
  | error e => rfl
  | ok genesisFaults =>
  simp only [WitnessBundle.index_eq]
  have hmap : c.bundles.zipIdx.map (fun x => x.1.indexed) = c.bundles.map WitnessBundle.indexed := by
    rw [← List.zipIdx_map_fst 0 c.bundles, List.map_map, List.zipIdx_map_fst]
    rfl
  rcases mapM_known (fun x : WitnessBundle × Nat => faultsOf (x.1.records x.2))
    (fun x => x.1.indexed) c.bundles.zipIdx with
    ⟨e, hsearch, hloop⟩ | ⟨found, items, hsearch, hloop, hfst, hsnd⟩
  · simp only [hsearch, hloop]
    rfl
  · have hall : schemaFaults ++ genesisFaults ++ found.flatten =
        schemaFaults ++ (genesisFaults ++ found.flatten) := List.append_assoc ..
    rw [c.indexed_eq]
    simp only [hsearch, hloop]
    dsimp only [Functor.map, Except.map, bind, Except.bind, pure, Except.pure, ownFault]
    rw [hfst, hsnd, hall, hmap]
    by_cases hnil : (schemaFaults ++ (genesisFaults ++ found.flatten)).isEmpty = true
    · simp only [hnil, if_true]
      cases faultOf "" c.encode <;> rfl
    · rewrite [if_neg hnil, if_neg hnil]
      dsimp only
      rewrite [if_neg hnil]
      rfl

/-! ## The findings in two parts -/

/-- What a check finds once the identifiers are recomputed. -/
def otherFindings (c : Consignment) (ix : ConsignmentIndex) : Except Failure (List StrictError) := do
  let genesis ← c.genesisFindings ix
  let bundles ← ix.bundles.zipIdx.mapM fun x => c.bundleFindings ix x.1 x.2
  return genesis ++ bundles.flatten ++ (c.terminalViolations ix ++ c.scriptViolations)

/-- The faults of the records of a consignment, and its own fault when they have none. -/
def faults (c : Consignment) : Except Failure (List StrictError) := do
  let found ← faultsOf c.records
  let own ← c.ownFault found
  return found ++ own

/-- A check reports the faults of a consignment and then what else it finds, whether there are faults
or not. -/
theorem findings_fst (c : Consignment) :
    Prod.fst <$> c.findings = do return (← c.faults) ++ (← c.otherFindings c.indexed) := by
  rw [findings, index_eq, faults]
  cases faultsOf c.records with
  | error e => rfl
  | ok found =>
    dsimp only [bind, Except.bind, pure, Except.pure]
    cases c.ownFault found with
    | error e => rfl
    | ok own =>
      -- the id of the consignment itself is not looked at any more
      show Prod.fst <$> (do
        let genesis ← c.genesisFindings c.indexed
        let bundles ← c.indexed.bundles.zipIdx.mapM fun x : IndexedBundle × Nat =>
          c.bundleFindings c.indexed x.1 x.2
        let rest := c.terminalViolations c.indexed ++ c.scriptViolations
        return (found ++ own ++ genesis ++ bundles.flatten ++ rest, _)) = _
      rw [otherFindings]
      cases c.genesisFindings c.indexed with
      | error e => rfl
      | ok genesis =>
        cases c.indexed.bundles.zipIdx.mapM fun x => c.bundleFindings c.indexed x.1 x.2 with
        | error e => rfl
        | ok bundles => exact congrArg Except.ok (by simp only [List.append_assoc])

/-- The check of a consignment reports its faults and its other findings. -/
theorem check_yields_faults (c : Consignment) :
    c.check.Yields (Report.mk <$> do return (← c.faults) ++ (← c.otherFindings c.indexed)) := by
  have h := c.check_yields
  rw [← findings_fst]
  cases hfindings : c.findings with
  | error e =>
    rw [hfindings] at h
    exact h
  | ok x =>
    rw [hfindings] at h
    exact h

end Consignment

end StrictContract
