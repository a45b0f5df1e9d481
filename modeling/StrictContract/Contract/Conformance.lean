import StrictContract.Codec.Read
import StrictContract.Contract.Schema
import StrictContract.Journal
import StrictContract.TypeSystem.Describing

/-! # Conformance — schemas against type systems, operations against schemas

A schema is **consistent** with a type system when every type id that it names resolves, every type
that its operations list is declared, and no bound is inverted. An operation **conforms** to a
schema when it carries only what its schema allows, as often as its schema says, and every state
value is an encoding of its declared type. Both checks find every violation. -/

namespace StrictContract

/-- A path with a type number behind it. -/
def typePath (path : String) (type : Int) : String := path ++ s!"[{type}]"

/-! ## Schemas -/

namespace Schema

/-- The violation of a type id that does not resolve. -/
def unresolved (types : TypeSystem) (path : String) (sid : SemId) : List StrictError :=
  if types.contains sid then [] else [.of path (.typeAbsent sid.text)]

/-- The type ids of a schema that do not resolve. -/
def unresolvedTypes (s : Schema) (types : TypeSystem) : List StrictError :=
  ((s.metaTypes.sorted intLe).flatMap fun (type, d) =>
    unresolved types (typePath "meta_types" type) d.type) ++
  ((s.globalTypes.sorted intLe).flatMap fun (type, d) =>
    unresolved types (typePath "global_types" type) d.type) ++
  ((s.ownedTypes.sorted intLe).flatMap fun (type, d) =>
    match structured? d with
    | some sid => unresolved types (typePath "owned_types" type) sid
    | none => [])

/-- The types of a table of bounds that are not declared, and its inverted bounds. -/
def boundViolations (path what : String) (bounds : Table Int Occurrences) (declared : Int → Bool) :
    List StrictError :=
  (bounds.sorted intLe).flatMap fun (type, o) =>
    let place := typePath path type
    (if declared type then [] else [.of place (.undeclaredType what type)]) ++
    (if o.max < o.min then [.of place (.invertedBound o.text)] else [])

/-- The violations of the shape of an operation. -/
def shapeViolations (s : Schema) (path : String) (shape : OperationSchema) : List StrictError :=
  boundViolations (path ++ ".metadata") "metadata" shape.metadata s.metaTypes.contains ++
  boundViolations (path ++ ".globals") "global state" shape.globals s.globalTypes.contains ++
  (match shape.inputs with
    | some inputs => boundViolations (path ++ ".inputs") "input" inputs s.ownedTypes.contains
    | none => []) ++
  boundViolations (path ++ ".assignments") "assignment" shape.assignments s.ownedTypes.contains

/-- Every inconsistency of a schema with a type system. -/
def violations (s : Schema) (types : TypeSystem) : List StrictError :=
  s.unresolvedTypes types ++
  s.shapeViolations "genesis" s.genesis ++
  (s.transitions.sorted intLe).flatMap fun (type, d) =>
    s.shapeViolations (typePath "transitions" type) d.shape

/-- The check of a schema against a type system. -/
def validate (s : Schema) (types : TypeSystem) : Logged Report := do
  let found := s.violations types
  if !found.isEmpty then
    Logged.log [.of .schema "conformance" .warning "schema is inconsistent"
      [("schema", s.name), ("violations", .ofNat found.length)]]
  return ⟨found⟩

/-- The shape of a type of transition. -/
def transitionShape? (s : Schema) (type : Value) : Except Failure (Option OperationSchema) :=
  if type.isKey then
    .ok ((type.number?.bind s.transitions.get?).map TransitionDetails.shape)
  else misuse .wrongType

end Schema

/-! ## Values -/

/-- The most bytes that a number of zero bytes can stand for: what the address of a byte can count,
less what the byte string needs for itself. -/
def mostZeros : Int := 0x8000000000000000 - 34

/-- The number of zero bytes that a number stands for. -/
def zeroCount (n : Int) : Except Failure Nat :=
  if n < -0x8000000000000000 ∨ mostZeros < n then misuse .outOfRange
  else if n < 0 then reject .negativeCount
  else .ok n.toNat

/-- The value that a state value encodes: a number stands for as many zero bytes, a sequence of
numbers for these bytes. -/
def Codec.decodeState (c : Codec) (v : Value) : Except Failure Value :=
  match v with
  | .null | .text _ | .broken _ => misuse .wrongType
  | _ =>
    match v.octets?, v.number? with
    | some octets, _ => c.decode octets
    | none, some n => do c.decode (List.replicate (← zeroCount n) 0)
    | none, none => do
      let octets ← (← v.iterate).mapM fun x =>
        match x.number? with
        | some n => if 0 ≤ n ∧ n < 256 then .ok (UInt8.ofNat n.toNat) else reject .notByte
        | none => misuse .wrongType
      c.decode octets

/-- The violation of a state value that is no encoding of its type. -/
def valueViolations (types : TypeSystem) (sid : SemId) (v : Value) (path : String) :
    Except Failure (List StrictError) := do
  if !types.contains sid then return [.of path (.typeAbsent sid.text)]
  match (do (← types.codecOf sid).decodeState v) with
  | .ok _ => return []
  | .error (.strict e) => return [.of path (.stateMismatch sid.text e.code e.rendered)]
  | .error f => .error f

/-- The violation of a number of occurrences outside its bound. -/
def countViolations (path : String) (o : Occurrences) (count : Nat) : List StrictError :=
  if o.admits count then [] else [.of path (.occurrences count o.text)]

/-! ## Operations -/

namespace Operation

/-- The parts of a check: the operation with its schema, type system and place. -/
structure Context where
  schema : Schema
  types : TypeSystem
  shape : OperationSchema
  path : String

/-- The violations in the metadata of an operation. -/
def metadataViolations (o : Operation) (c : Context) : Except Failure (List StrictError) := do
  let path := c.path ++ ".metadata"
  let values ← (o.state.metadata.sorted intLe).mapM fun (type, value) =>
    match c.shape.metadata.get? type, c.schema.metaTypes.get? type with
    | some _, some d => valueViolations c.types d.type value (typePath path type)
    | _, _ => .ok [.of (typePath path type) (.notAllowed "metadata" type)]
  let counts := (c.shape.metadata.sorted intLe).flatMap fun (type, bound) =>
    countViolations (typePath path type) bound (if o.state.metadata.contains type then 1 else 0)
  return values.flatten ++ counts

/-- The violations in the items of one global type. -/
def globalViolations (c : Context) (d : GlobalDetails) (path : String) (items : List Value) :
    Except Failure (List StrictError) := do
  let tooMany : List StrictError :=
    if d.maxItems < items.length then [.of path (.tooManyItems (toString d.maxItems) items.length)]
    else []
  let values ← items.zipIdx.mapM fun (value, i) =>
    valueViolations c.types d.type value (path ++ indexSegment i)
  return tooMany ++ values.flatten

/-- The violations in the global state of an operation. -/
def globalsViolations (o : Operation) (c : Context) : Except Failure (List StrictError) := do
  let path := c.path ++ ".globals"
  let values ← (o.state.globals.sorted intLe).mapM fun (type, items) =>
    match c.shape.globals.get? type, c.schema.globalTypes.get? type with
    | some _, some d => globalViolations c d (typePath path type) items
    | _, _ => .ok [.of (typePath path type) (.notAllowed "global state" type)]
  let counts := (c.shape.globals.sorted intLe).flatMap fun (type, bound) =>
    countViolations (typePath path type) bound ((o.state.globals.get? type).getD []).length
  return values.flatten ++ counts

/-- Whether an operation is a genesis. -/
def isGenesis : Operation → Bool
  | genesis _ => true
  | transition _ => false

/-- The violations in one assignment of a declared type. -/
def assignmentViolations (o : Operation) (c : Context) (state : StateSchema) (path : String)
    (a : Assignment) : Except Failure (List StrictError) := do
  let relative : List StrictError :=
    match o.isGenesis, a with
    | true, .revealed definition _ =>
      if definition.transaction.isNone then [.of (path ++ ".seal") .witnessRelativeSeal] else []
    | _, _ => []
  let value ←
    match state with
    | .structured sid => valueViolations c.types sid a.state (path ++ ".state")
    | _ => .ok []
  return relative ++ value

/-- The violations in the assignments of one declared type. -/
def typeViolations (o : Operation) (c : Context) (state : StateSchema) (path : String)
    (a : Assignments) : Except Failure (List StrictError) := do
  if a.kind ≠ state.kind then
    return [.of path (.kindMismatch state.kind.name a.kind.name)]
  let found ← a.positioned.mapM fun (i, x) =>
    o.assignmentViolations c state (path ++ indexSegment i) x
  return found.flatten

/-- The violations in the assignments of an operation. -/
def assignmentsViolations (o : Operation) (c : Context) : Except Failure (List StrictError) := do
  let path := c.path ++ ".assignments"
  let values ← (o.state.assignments.sorted intLe).mapM fun (type, a) =>
    match c.shape.assignments.get? type, c.schema.ownedTypes.get? type with
    | some _, some d => o.typeViolations c d.state (typePath path type) a
    | _, _ => .ok [.of (typePath path type) (.notAllowed "assignment" type)]
  let counts := (c.shape.assignments.sorted intLe).flatMap fun (type, bound) =>
    countViolations (typePath path type) bound
      (((o.state.assignments.get? type).map fun a => a.items.length).getD 0)
  return values.flatten ++ counts

/-- How many inputs are of a type. -/
def inputCount (o : Operation) (type : Int) : Nat := o.inputs.countP (·.type = type)

/-- The violations in the inputs of a transition. -/
def inputsViolations (o : Operation) (c : Context) (bounds : Table Int Occurrences) :
    List StrictError :=
  let path := c.path ++ ".inputs"
  let types := (distinct (o.inputs.map Opout.type)).mergeSort intLe
  let undeclared := types.flatMap fun type =>
    if bounds.contains type && c.schema.ownedTypes.contains type then []
    else [.of (typePath path type) (.notAllowed "input of assignment" type)]
  let counts := (bounds.sorted intLe).flatMap fun (type, bound) =>
    countViolations (typePath path type) bound (o.inputCount type)
  undeclared ++ counts

/-- Every violation of the fields of an operation. -/
def fieldViolations (o : Operation) (c : Context) : Except Failure (List StrictError) := do
  let metadata ← o.metadataViolations c
  let globals ← o.globalsViolations c
  let inputs :=
    match c.shape.inputs with
    | some bounds => o.inputsViolations c bounds
    | none => []
  let assignments ← o.assignmentsViolations c
  return metadata ++ globals ++ inputs ++ assignments

/-- The check of an operation's fields against a shape. -/
def validateFields (o : Operation) (c : Context) : Logged Report := do
  let found ← o.fieldViolations c
  if !found.isEmpty then
    Logged.log [.of .schema "conformance" .debug "operation violates schema"
      [("path", .text c.path), ("violations", .ofNat found.length)]]
  return ⟨found⟩

/-- The check of an operation against its schema. -/
def validate (o : Operation) (schema : Schema) (types : TypeSystem) (path : String) :
    Logged Report := do
  match o with
  | genesis _ => o.validateFields ⟨schema, types, schema.genesis, path⟩
  | transition t =>
    match ← schema.transitionShape? t.type with
    | some shape => o.validateFields ⟨schema, types, shape, path⟩
    | none =>
      return ⟨[.of (path ++ ".transition_type")
        (.undeclaredTransition t.type.display schema.name.display)]⟩

/-- The place of an operation that stands alone. -/
def defaultPath : Operation → String
  | genesis _ => "genesis"
  | transition _ => "transition"

end Operation

end StrictContract
