import StrictContract.Failure
import StrictContract.Value

/-! # Records of declared types — which fields a record has to be given

A record of a declared type is given its fields by name. Some names mean something for every record
type, such as `__name__`: these are **innate**. A field with an innate name may be left out; the
record then has there what the name means for its type. -/

namespace StrictContract

/-- The words of lines, in which they are separated by single blanks. -/
def wordsOf (lines : List String) : List String :=
  lines.flatMap fun line => line.splitOn " "

namespace RecordType

/-- The innate names that mean operations, with the sorts these belong to. -/
def innateOperations : List (String × List String) := [
  ("wrapper_descriptor", wordsOf [
    "__delattr__ __eq__ __ge__ __getattribute__ __gt__ __hash__ __init__ __le__ __lt__ __ne__",
    "__repr__ __setattr__ __str__"]),
  ("method_descriptor", wordsOf [
    "__dir__ __format__ __getstate__ __reduce__ __reduce_ex__ __sizeof__"]),
  ("builtin_function_or_method", wordsOf [
    "__init_subclass__ __instancecheck__ __new__ __prepare__ __subclasscheck__ __subclasses__",
    "__subclasshook__ mro"]),
  ("method-wrapper", wordsOf ["__call__ __or__ __ror__"]),
  ("type", wordsOf ["__base__ __class__"]),
  ("tuple", wordsOf ["__bases__ __mro__"]),
  ("int", ["__flags__"]),
  ("getset_descriptor", ["__weakref__"]),
  ("_DataclassParams", ["__dataclass_params__"])]

/-- The innate names that mean data. -/
def innateData (type : RecordType) : List (String × Value) := [
  ("__name__", .text type.name), ("__qualname__", .text type.name), ("__module__", .text "types"),
  ("__doc__", .null), ("__text_signature__", .null), ("__basicsize__", .int 24),
  ("__itemsize__", .int 0), ("__dictoffset__", .int (-48)), ("__weakrefoffset__", .int 16)]

/-- What an innate name means for a record type. -/
def innate? (type : RecordType) (name : String) : Option Value :=
  type.innateData.lookup name <|>
    (innateOperations.find? fun (_, names) => names.contains name).map fun (sort, _) =>
      .feature sort ""

/-- The innate names of what could be changed, and how it is shown; these name no fields. -/
def changeable : List (String × String) :=
  [("__annotations__", "<class 'dict'>"), ("__dict__", "<class 'mappingproxy'>")]

/-- Whether a field that may be left out stands in front of one that may not. -/
def isDisordered (type : RecordType) : Bool :=
  let required := type.fields.map fun name => (type.innate? name).isNone
  (required.dropWhile id).any id

/-- A record with a value for every field. Fields of some names cannot be given any value. -/
def record (type : RecordType) (fields : List (String × Value)) : Except Failure Value :=
  if !fields.isEmpty && type.fields.contains "__dataclass_builtins_object__" then misuse .wrongType
  else match type.fields.find? fun name => name = "__class__" || name = "__weakref__" with
    | some name => misuse (if name = "__class__" then .wrongType else .noSuchPart)
    | none => .ok (.declared type fields)

/-- The record with the given fields; of two with one name the later one counts. -/
def recordOf (type : RecordType) (given : List (String × Value)) : Except Failure Value := do
  if !given.all fun (name, _) => type.fields.contains name then misuse .wrongType
  type.record (← type.fields.mapM fun name =>
    match given.reverse.lookup name <|> type.innate? name with
    | some v => .ok (name, v)
    | none => misuse .wrongType)

end RecordType

end StrictContract
