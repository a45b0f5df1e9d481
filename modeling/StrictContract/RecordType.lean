/-! # Record types — the types of records that structs declare

A struct may declare a type for its values. Records of such a **record type** have a name for each
field. Types are told apart by their declaration: two of them may look alike. -/

namespace StrictContract

/-- A declared **record type**. -/
structure RecordType where
  name : String
  /-- The names of the fields. -/
  fields : List String
  /-- What tells declarations apart that look alike. -/
  serial : Nat
deriving DecidableEq

end StrictContract
