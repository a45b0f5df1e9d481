import StrictContract.TypeDef

/-! # Type systems — closed collections of type definitions

A **type system** maps ids to type definitions. It only grows, and a definition enters only after
everything it refers to, so every reference inside it resolves. A type system that arrives from
outside is **loaded**: every definition is checked against the id it is carried under and every
reference is looked up. -/

namespace StrictContract

/-- A **type system**: its definitions by id, in the order in which they came. -/
structure TypeSystem where
  entries : List (SemId × TypeDef)
deriving DecidableEq

namespace TypeSystem

/-- The number of definitions that a type system may hold. -/
def capacity : Nat := 0xffffff

/-- The type system without definitions. -/
def empty : TypeSystem := ⟨[]⟩

/-- The number of definitions. -/
def size (ts : TypeSystem) : Nat := ts.entries.length

/-- The definition with an id. -/
def get? (ts : TypeSystem) (sid : SemId) : Option TypeDef := ts.entries.lookup sid

/-- Whether there is a definition with an id. -/
def contains (ts : TypeSystem) (sid : SemId) : Bool := (ts.get? sid).isSome

/-- The ids in ascending order. -/
def ids (ts : TypeSystem) : List SemId := (ts.entries.map Prod.fst).mergeSort Id.le

/-- The definition with an id, which has to be there. -/
def find (ts : TypeSystem) (sid : SemId) : Except Failure TypeDef :=
  match ts.get? sid with
  | some d => .ok d
  | none => fail (.typeAbsent sid.text)

/-- Whether two type systems have the same definitions. -/
def same (a b : TypeSystem) : Bool :=
  a.size == b.size && a.entries.all fun (sid, d) => b.get? sid == some d

/-! ## Growing -/

/-- Adds a definition under an id that is not taken. -/
def add (ts : TypeSystem) (sid : SemId) (d : TypeDef) : Except Failure TypeSystem :=
  if ts.size < capacity then .ok ⟨ts.entries ++ [(sid, d)]⟩
  else fail (.typeSystemFull capacity)

/-- The first reference of a draft that a type system does not hold. -/
def missing? (ts : TypeSystem) (d : Draft) : Option SemId :=
  d.references.find? fun ref => !ts.contains ref

/-- Inserts a draft of which all references are present, and gives its id. A definition that is
already there changes nothing. -/
def insert (ts : TypeSystem) (d : Draft) : Except Failure (SemId × TypeSystem) := do
  d.validate
  if let some ref := ts.missing? d then
    fail (.referenceBeforeDefinition d.kindName ref.text)
  let sid ← d.semId
  if ts.contains sid then return (sid, ts)
  match d.definition? with
  | some known => return (sid, ← ts.add sid known)
  | none => misuse .wrongType

/-- A computation that grows a type system; what was added stays even if it fails. -/
abbrev Growth : Type → Type := ExceptT Failure (StateM TypeSystem)

/-- Inserts a draft into the growing type system. -/
def Growth.insert (d : Draft) : Growth SemId := fun ts =>
  match ts.insert d with
  | .ok (sid, ts') => (.ok sid, ts')
  | .error e => (.error e, ts)

/-- Adds the definitions that are not there, and gives the number of them. -/
def Growth.mergeEntries : List (SemId × TypeDef) → Nat → Growth Nat
  | [], added => return added
  | (sid, d) :: rest, added => fun ts =>
    if ts.contains sid then mergeEntries rest added ts
    else
      match ts.add sid d with
      | .ok ts' => mergeEntries rest (added + 1) ts'
      | .error e => (.error e, ts)

/-- Adds every definition of another type system that is not there, and gives their number. -/
def Growth.merge (other : TypeSystem) : Growth Nat := Growth.mergeEntries other.entries 0

/-! ## Loading -/

/-- Refuses a draft that breaks a rule, or that is carried under another id than its own. -/
def checkCarried (sid : SemId) (d : Draft) : Except Failure Unit := do
  let place := "[" ++ sid.hex ++ "]"
  inside place d.validate
  let actual ← d.semId
  if actual ≠ sid then .error (.strict (.of place (.carriedType actual.text)))

/-- Refuses a draft with a reference that is not among the loaded ids. -/
def checkClosed (sids : List SemId) (sid : SemId) (d : Draft) : Except Failure Unit :=
  match d.references.find? fun ref => !sids.contains ref with
  | none => .ok ()
  | some ref =>
    .error (.strict (.of ("[" ++ sid.hex ++ "]") (.referenceMissing ref.text)))

/-- The entry of a draft under the id it was checked against. -/
def loadedEntry (sid : SemId) (d : Draft) : Except Failure (SemId × TypeDef) :=
  match d.definition? with
  | some known => .ok (sid, known)
  | none => misuse .wrongType

/-- Loads drafts that are carried under ids. The definitions come in ascending order of the ids. -/
def load (drafts : List (SemId × Draft)) : Except Failure TypeSystem := do
  if capacity < drafts.length then fail (.tooManyTypes drafts.length capacity)
  for (sid, d) in drafts do checkCarried sid d
  let sids := drafts.map Prod.fst
  for (sid, d) in drafts do checkClosed sids sid d
  let entries ← drafts.mapM fun (sid, d) => loadedEntry sid d
  return ⟨entries.mergeSort fun a b => a.1.le b.1⟩

/-! ## Extracting -/

/-- Collects the definitions that the ids on a stack reach, in the order of their visit; `fuel`
bounds the number of visits. -/
def collect (ts : TypeSystem) :
    Nat → List SemId → List (SemId × TypeDef) → Except Failure (List (SemId × TypeDef))
  | 0, _, found => .ok found.reverse
  | _ + 1, [], found => .ok found.reverse
  | fuel + 1, sid :: stack, found =>
    if (found.lookup sid).isSome then collect ts fuel stack found
    else do
      let d ← ts.find sid
      collect ts fuel (d.references.reverse ++ stack) ((sid, d) :: found)

/-- A bound on the number of visits: every root and every reference is put on the stack at most
once. -/
def visitBound (ts : TypeSystem) (roots : List SemId) : Nat :=
  ts.entries.foldl (fun bound (_, d) => bound + d.references.length) roots.length

/-- The type system of everything that the roots reach. -/
def extract (ts : TypeSystem) (roots : List SemId) : Except Failure TypeSystem := do
  let found ← ts.collect (ts.visitBound roots) roots.reverse []
  load (found.map fun (sid, d) => (sid, d.toDraft))

/-! ## Encoding -/

/-- The codec of type systems. -/
def codec : Codec :=
  .struct "TypeSystem"
    [("types", .map (.id .sem) TypeDef.codec { min := 0, max := capacity } .mapping none)]
    .typeSystem true

/-- The record of a type system. -/
def toValue (ts : TypeSystem) : Value :=
  .record "TypeSystem"
    [("types", .map (ts.entries.map fun (sid, d) => (.id .sem sid, d.toValue)))]

/-- The canonical bytes of a type system. -/
def encode (ts : TypeSystem) : Except Failure Octets := codec.write ts.toValue

/-- The ids and drafts that the entries of a mapping describe. -/
def draftsOf? (entries : List (Value × Value)) : Option (List (SemId × Draft)) :=
  entries.mapM fun (k, v) => return (← k.id? .sem, ← Draft.ofValue? v)

/-- Loads the type system that a mapping from ids to definitions describes. -/
def ofValue (v : Value) : Except Failure TypeSystem :=
  match v with
  | .map entries =>
    match draftsOf? entries with
    | some drafts => load drafts
    | none => misuse .wrongType
  | _ => misuse .wrongType

/-- The type system that a record holds, without checking it again. -/
def ofRecord? (v : Value) : Option TypeSystem := do
  match ← v.part? "types" with
  | .map entries =>
    let drafts ← draftsOf? entries
    return ⟨← drafts.mapM fun (sid, d) => return (sid, ← d.definition?)⟩
  | _ => none

end TypeSystem

end StrictContract
