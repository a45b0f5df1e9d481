import StrictContract.Contract.Operation

/-! # Schemas — the declared shape of the operations of a contract

A **schema** declares the types of metadata, global state and owned state, and for the genesis and
every type of transition how often each field may occur. Validation scripts are anchored at a place
in a script library that consignments carry. -/

namespace StrictContract

/-- **Occurrences**: how many times a field may occur, both ends included. -/
structure Occurrences where
  min : Int
  max : Int
deriving DecidableEq

namespace Occurrences

/-- Exactly once. -/
def once : Occurrences := ⟨1, 1⟩

/-- At most once. -/
def noOrOnce : Occurrences := ⟨0, 1⟩

/-- Any number of times. -/
def noOrMore : Occurrences := ⟨0, 0xffff⟩

/-- At least once. -/
def onceOrMore : Occurrences := ⟨1, 0xffff⟩

/-- At most a number of times. -/
def noOrUpTo (n : Int) : Occurrences := ⟨0, n⟩

/-- At least once and at most a number of times. -/
def onceOrUpTo (n : Int) : Occurrences := ⟨1, n⟩

/-- The bound with a given name; two of the names need a number of times. -/
def named? (name : String) (n : Int) : Option Occurrences :=
  match name with
  | "once" => some once
  | "no_or_once" => some noOrOnce
  | "no_or_more" => some noOrMore
  | "once_or_more" => some onceOrMore
  | "no_or_up_to" => some (noOrUpTo n)
  | "once_or_up_to" => some (onceOrUpTo n)
  | _ => none

/-- Whether a number of times is within the bound. -/
def admits (o : Occurrences) (count : Nat) : Bool := decide (o.min ≤ count ∧ count ≤ o.max)

/-- The text of a bound. -/
def text (o : Occurrences) : String := s!"[{o.min}, {o.max}]"

/-- The codec of bounds. -/
def codec : Codec :=
  .struct "Occurrences" [("min", .uint 2), ("max", .uint 2)] (.record "Occurrences") false

/-- The codec of bounds by type. -/
def tableCodec : Codec := .map (.uint 2) codec .tiny .mapping none

/-- The record of a bound. -/
def toValue (o : Occurrences) : Value :=
  .record "Occurrences" [("min", .int o.min), ("max", .int o.max)]

/-- The bound that a record describes. -/
def ofValue? (v : Value) : Option Occurrences := do
  return ⟨← (← v.part? "min").int?, ← (← v.part? "max").int?⟩

end Occurrences

/-- The place of a validation script: a position in a library. -/
structure LibSite where
  lib : LibId
  position : Int
deriving DecidableEq

namespace LibSite

/-- The codec of script places. -/
def codec : Codec :=
  .struct "LibSite" [("lib", .id .library), ("pos", .uint 2)] (.record "LibSite") false

/-- The record of a script place. -/
def toValue (s : LibSite) : Value :=
  .record "LibSite" [("lib", .id .library s.lib), ("pos", .int s.position)]

/-- The script place that a record describes. -/
def ofValue? (v : Value) : Option LibSite := do
  return ⟨← (← v.part? "lib").id? .library, ← (← v.part? "pos").int?⟩

end LibSite

/-- The declaration of a type of owned state. -/
inductive StateSchema where
  | declarative
  | fungible (amount : Value)
  | structured (type : SemId)

namespace StateSchema

/-- The types of amounts. -/
def amountType : Enumeration where
  name := "FungibleType"
  names := [("Unsigned64Bit", 8)]

/-- The usual type of amounts. -/
def amount : Value := .member amountType "Unsigned64Bit" 8

/-- The kind of the declared state. -/
def kind : StateSchema → StateKind
  | declarative => .declarative
  | fungible _ => .fungible
  | structured _ => .structured

/-- The codec of declarations. -/
def codec : Codec :=
  .union "OwnedStateSchema" [
    (0, "declarative", .struct "DeclarativeSchema" [] (.record "DeclarativeSchema") false),
    (1, "fungible", .struct "FungibleSchema" [("fungible_type", .enumeration amountType)]
      (.record "FungibleSchema") false),
    (2, "structured", .struct "StructuredSchema" [("sem_id", .id .sem)]
      (.record "StructuredSchema") false)]

/-- The record of a declaration. -/
def toValue : StateSchema → Value
  | declarative => .record "DeclarativeSchema" []
  | fungible amount => .record "FungibleSchema" [("fungible_type", amount)]
  | structured type => .record "StructuredSchema" [("sem_id", .id .sem type)]

/-- The declaration that a record describes. -/
def ofValue? (v : Value) : Option StateSchema := do
  match v with
  | .record "DeclarativeSchema" _ => return declarative
  | .record "FungibleSchema" _ => return fungible (← v.part? "fungible_type")
  | .record "StructuredSchema" _ => return structured (← (← v.part? "sem_id").id? .sem)
  | _ => none

end StateSchema

/-- A declared type of metadata. -/
structure MetaDetails where
  type : SemId
  name : Value

/-- A declared type of global state. -/
structure GlobalDetails where
  type : SemId
  maxItems : Int
  name : Value

/-- A declared type of owned state. -/
structure OwnedDetails where
  state : StateSchema
  name : Value

/-- How often the fields of an operation may occur, by their types. Only transitions have inputs. -/
structure OperationSchema where
  metadata : Table Int Occurrences
  globals : Table Int Occurrences
  inputs : Option (Table Int Occurrences)
  assignments : Table Int Occurrences
  validator : Option LibSite

/-- A declared type of transition. -/
structure TransitionDetails where
  shape : OperationSchema
  name : Value

/-- A **schema**. -/
structure Schema where
  name : Value
  metaTypes : Table Int MetaDetails
  globalTypes : Table Int GlobalDetails
  ownedTypes : Table Int OwnedDetails
  genesis : OperationSchema
  transitions : Table Int TransitionDetails

/-! ## Codecs -/

namespace Schema

/-- The codec of the names of fields. -/
def fieldName : Codec :=
  .ascii .alphaLodash .alphaNumLodash .nameLength (some "FieldName")

/-- The codec of the names of schemas. -/
def schemaName : Codec :=
  .ascii .alphaLodash .alphaNumLodash { min := 0, max := 39 } (some "SchemaName")

/-- A map from types. -/
def byType (c : Codec) : Codec := .map (.uint 2) c .tiny .mapping none

/-- The codec of the shape of a genesis. -/
def genesisCodec : Codec :=
  .struct "GenesisSchema"
    [("metadata", Occurrences.tableCodec), ("globals", Occurrences.tableCodec),
     ("assignments", Occurrences.tableCodec), ("validator", .option LibSite.codec)]
    (.record "GenesisSchema") false

/-- The codec of the shape of a transition. -/
def transitionCodec : Codec :=
  .struct "TransitionSchema"
    [("metadata", Occurrences.tableCodec), ("globals", Occurrences.tableCodec),
     ("inputs", Occurrences.tableCodec), ("assignments", Occurrences.tableCodec),
     ("validator", .option LibSite.codec)]
    (.record "TransitionSchema") false

/-- The codec of schemas. -/
def codec : Codec :=
  .struct "Schema"
    [("name", schemaName),
     ("meta_types", byType (.struct "MetaDetails" [("sem_id", .id .sem), ("name", fieldName)]
       (.record "MetaDetails") false)),
     ("global_types", byType (.struct "GlobalDetails"
       [("sem_id", .id .sem), ("max_items", .uint 2), ("name", fieldName)]
       (.record "GlobalDetails") false)),
     ("owned_types", byType (.struct "AssignmentDetails"
       [("state_schema", StateSchema.codec), ("name", fieldName)]
       (.record "AssignmentDetails") false)),
     ("genesis", genesisCodec),
     ("transitions", byType (.struct "TransitionDetails"
       [("transition_schema", transitionCodec), ("name", fieldName)]
       (.record "TransitionDetails") false))]
    (.record "Schema") false

end Schema

/-! ## Records -/

namespace MetaDetails

/-- The record of a type of metadata. -/
def toValue (d : MetaDetails) : Value :=
  .record "MetaDetails" [("sem_id", .id .sem d.type), ("name", d.name)]

/-- The type of metadata that a record describes. -/
def ofValue? (v : Value) : Option MetaDetails := do
  return ⟨← (← v.part? "sem_id").id? .sem, ← v.part? "name"⟩

end MetaDetails

namespace GlobalDetails

/-- The record of a type of global state. -/
def toValue (d : GlobalDetails) : Value :=
  .record "GlobalDetails"
    [("sem_id", .id .sem d.type), ("max_items", .int d.maxItems), ("name", d.name)]

/-- The type of global state that a record describes. -/
def ofValue? (v : Value) : Option GlobalDetails := do
  return ⟨← (← v.part? "sem_id").id? .sem, ← (← v.part? "max_items").int?, ← v.part? "name"⟩

end GlobalDetails

namespace OwnedDetails

/-- The record of a type of owned state. -/
def toValue (d : OwnedDetails) : Value :=
  .record "AssignmentDetails" [("state_schema", d.state.toValue), ("name", d.name)]

/-- The type of owned state that a record describes. -/
def ofValue? (v : Value) : Option OwnedDetails := do
  return ⟨← StateSchema.ofValue? (← v.part? "state_schema"), ← v.part? "name"⟩

end OwnedDetails

namespace OperationSchema

/-- The record of the shape of an operation. -/
def toValue (s : OperationSchema) : Value :=
  let bounds (t : Table Int Occurrences) := t.toValue Occurrences.toValue
  let validator := Value.ofOption LibSite.toValue s.validator
  match s.inputs with
  | none =>
    .record "GenesisSchema"
      [("metadata", bounds s.metadata), ("globals", bounds s.globals),
       ("assignments", bounds s.assignments), ("validator", validator)]
  | some inputs =>
    .record "TransitionSchema"
      [("metadata", bounds s.metadata), ("globals", bounds s.globals), ("inputs", bounds inputs),
       ("assignments", bounds s.assignments), ("validator", validator)]

/-- The shape of an operation that a record describes. -/
def ofValue? (v : Value) : Option OperationSchema := do
  let bounds (name : String) : Option (Table Int Occurrences) := do
    Table.ofValue? Occurrences.ofValue? (← v.part? name)
  let validator ←
    match ← v.part? "validator" with
    | .null => some none
    | x => (LibSite.ofValue? x).map some
  return {
    metadata := ← bounds "metadata"
    globals := ← bounds "globals"
    inputs := bounds "inputs"
    assignments := ← bounds "assignments"
    validator }

end OperationSchema

namespace Schema

/-- The record of a schema. -/
def toValue (s : Schema) : Value :=
  .record "Schema"
    [("name", s.name), ("meta_types", s.metaTypes.toValue MetaDetails.toValue),
     ("global_types", s.globalTypes.toValue GlobalDetails.toValue),
     ("owned_types", s.ownedTypes.toValue OwnedDetails.toValue),
     ("genesis", s.genesis.toValue),
     ("transitions", s.transitions.toValue fun d =>
       .record "TransitionDetails" [("transition_schema", d.shape.toValue), ("name", d.name)])]

/-- The schema that a record describes. -/
def ofValue? (v : Value) : Option Schema := do
  return {
    name := ← v.part? "name"
    metaTypes := ← Table.ofValue? MetaDetails.ofValue? (← v.part? "meta_types")
    globalTypes := ← Table.ofValue? GlobalDetails.ofValue? (← v.part? "global_types")
    ownedTypes := ← Table.ofValue? OwnedDetails.ofValue? (← v.part? "owned_types")
    genesis := ← OperationSchema.ofValue? (← v.part? "genesis")
    transitions := ← Table.ofValue? (fun x => do
      return ⟨← OperationSchema.ofValue? (← x.part? "transition_schema"), ← x.part? "name"⟩)
      (← v.part? "transitions") }

/-- The canonical bytes of a schema. -/
def encode (s : Schema) : Except Failure Octets := codec.write s.toValue

/-- The id of a schema. -/
def schemaId (s : Schema) : Except Failure SchemaId := do return Id.ofContent .schema (← s.encode)

/-! ## What a schema names -/

/-- The type of a structured declaration. -/
def structured? (d : OwnedDetails) : Option SemId :=
  match d.state with
  | .structured type => some type
  | _ => none

/-- The type ids that a schema names, each once, in the order of the declarations. -/
def types (s : Schema) : List SemId :=
  distinct <|
    ((s.metaTypes.sorted intLe).map fun (_, d) => d.type) ++
    ((s.globalTypes.sorted intLe).map fun (_, d) => d.type) ++
    ((s.ownedTypes.sorted intLe).filterMap fun (_, d) => structured? d)

/-- The places of validation scripts, each with the path of its declaration. -/
def libSites (s : Schema) : List (String × LibSite) :=
  (s.genesis.validator.map fun site => ("genesis.validator", site)).toList ++
  (s.transitions.sorted intLe).filterMap fun (type, d) =>
    d.shape.validator.map fun site => (s!"transitions[{type}].validator", site)

end Schema

end StrictContract
