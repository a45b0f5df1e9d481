import StrictContract.Value.Keys
import StrictContract.Value.Record

/-! # Features — what a value answers to by name

Besides its named parts a value has **features**: facts about it, such as the numerator of a number
or the domain tag of an identifier, its type, and the operations on it. An operation is no data: a
codec that meets one refuses it, naming its sort. Where two features share a name, the one that
belongs to fewer values is meant. -/

namespace StrictContract.Value

/-! ## Operations -/

/-- The sorts of operations. -/
inductive OperationSort where
  | builtin
  | wrapper
  | method
  | function
deriving DecidableEq

/-- The name of a sort of operations. -/
def OperationSort.name : OperationSort → String
  | builtin => "builtin_function_or_method"
  | wrapper => "method-wrapper"
  | method => "method"
  | function => "function"

/-- The **operations** of one kind of value, with the sorts they belong to. -/
structure Operations where
  sort : OperationSort
  names : List String

/-- The operation with a given name. -/
def operation? (groups : List Operations) (name : String) : Option Value :=
  (groups.find? fun g => g.names.contains name).map fun g => feature g.sort.name ""

/-- The operations on every value. -/
def generalOperations : List Operations := [
  ⟨.wrapper, wordsOf [
    "__delattr__ __eq__ __ge__ __getattribute__ __gt__ __hash__ __init__ __le__ __lt__ __ne__",
    "__repr__ __setattr__ __str__"]⟩,
  ⟨.builtin, wordsOf [
    "__dir__ __format__ __getstate__ __init_subclass__ __new__ __reduce__ __reduce_ex__",
    "__sizeof__ __subclasshook__"]⟩]

/-- The operations on numbers. -/
def numberOperations : List Operations := [
  ⟨.builtin, wordsOf [
    "as_integer_ratio bit_count bit_length conjugate from_bytes to_bytes __ceil__ __floor__",
    "__getnewargs__ __round__ __trunc__"]⟩,
  ⟨.wrapper, wordsOf [
    "__abs__ __add__ __and__ __bool__ __divmod__ __float__ __floordiv__ __index__ __int__",
    "__invert__ __lshift__ __mod__ __mul__ __neg__ __or__ __pos__ __pow__ __radd__ __rand__",
    "__rdivmod__ __rfloordiv__ __rlshift__ __rmod__ __rmul__ __ror__ __rpow__ __rrshift__",
    "__rshift__ __rsub__ __rtruediv__ __rxor__ __sub__ __truediv__ __xor__"]⟩]

/-- The operations on texts, byte strings and sequences. -/
def sequenceOperations : List Operations := [
  ⟨.builtin, ["count", "index"]⟩,
  ⟨.wrapper, wordsOf ["__add__ __contains__ __getitem__ __iter__ __len__ __mul__ __rmul__"]⟩]

/-- The operations on texts and byte strings. -/
def stringOperations : List Operations := [
  ⟨.builtin, wordsOf [
    "capitalize center endswith expandtabs find isalnum isalpha isascii isdigit islower",
    "isspace istitle isupper join ljust lower lstrip maketrans partition removeprefix",
    "removesuffix replace rfind rindex rjust rpartition rsplit rstrip split splitlines",
    "startswith strip swapcase title translate upper zfill __getnewargs__"]⟩,
  ⟨.wrapper, ["__mod__", "__rmod__"]⟩] ++ sequenceOperations

/-- The operations on texts. -/
def textOperations : List Operations :=
  ⟨.builtin, wordsOf [
    "casefold encode format format_map isdecimal isidentifier isnumeric isprintable"]⟩ ::
  stringOperations

/-- The operations on byte strings. -/
def bytesOperations : List Operations :=
  ⟨.builtin, ["decode", "fromhex", "hex", "__bytes__"]⟩ :: stringOperations

/-- The operations on identifiers of a kind. -/
def idOperations (kind : IdKind) : List Operations :=
  ⟨.method, ["commit", "from_hex", "__repr__", "__str__"] ++
    if kind = .transaction then ["from_raw_tx"] else []⟩ ::
  ⟨.function, ["__new__"]⟩ :: bytesOperations

/-- The operations on lists. -/
def listOperations : List Operations :=
  ⟨.builtin, wordsOf [
    "append clear copy extend insert pop remove reverse sort __class_getitem__ __getitem__",
    "__reversed__"]⟩ ::
  ⟨.wrapper, wordsOf ["__delitem__ __iadd__ __imul__ __setitem__"]⟩ :: sequenceOperations

/-- The operations on fixed sequences. -/
def tupleOperations : List Operations :=
  ⟨.builtin, ["__class_getitem__", "__getnewargs__"]⟩ :: sequenceOperations

/-- The operations on tagged values. -/
def taggedOperations : List Operations :=
  ⟨.method, wordsOf ["_asdict _make _replace __getnewargs__ __repr__"]⟩ ::
  ⟨.function, ["__new__"]⟩ :: tupleOperations

/-- The operations on records of declared types. -/
def recordOperations : List Operations := [
  ⟨.method, wordsOf ["__delattr__ __eq__ __hash__ __init__ __repr__ __setattr__"]⟩]

/-- The operations on members of enumerations. -/
def memberOperations : List Operations :=
  ⟨.method, wordsOf [
    "_generate_next_value_ _missing_ __copy__ __deepcopy__ __dir__ __init__ __new__",
    "__reduce_ex__ __repr__"]⟩ ::
  ⟨.builtin, ["_new_member_"]⟩ :: ⟨.wrapper, ["_value_repr_"]⟩ :: numberOperations

/-- The operations on a value. -/
def operations : Value → List Operations
  | null => ⟨.wrapper, ["__bool__"]⟩ :: generalOperations
  | bool _ | int _ => numberOperations ++ generalOperations
  | text _ | broken _ => textOperations ++ generalOperations
  | bytes _ => bytesOperations ++ generalOperations
  | id kind _ => idOperations kind ++ generalOperations
  | list _ => listOperations ++ generalOperations
  | tuple _ => tupleOperations ++ generalOperations
  | tagged _ _ => taggedOperations ++ generalOperations
  | declared _ _ => recordOperations ++ generalOperations
  | member _ _ _ => memberOperations ++ generalOperations
  | _ => generalOperations

/-! ## Facts -/

/-- The parts of a fraction, and of a complex number, that a number is. -/
def numberFact? (n : Int) (name : String) : Option Value :=
  if name = "real" || name = "numerator" then some (int n)
  else if name = "imag" then some (int 0)
  else if name = "denominator" then some (int 1)
  else none

/-- A description in words. -/
def description : Value := feature "str" ""

/-- What is known of a tagged value: the names of its parts, and the value that stands for a missing
payload. -/
def taggedFact? (name : String) : Option Value :=
  if name = "_fields" || name = "__match_args__" then some (tuple [text "name", text "value"])
  else if name = "_field_defaults" then some (map [(text "value", null)])
  else if name = "__slots__" then some (tuple [])
  else if name = "__module__" then some (text "rgbcore.strict.composite")
  else if name = "__doc__" then
    some (text "Union value whose payload does not identify its own variant.")
  else if name = "__annotations__" then
    some (ofFields [("name", feature "ForwardRef" "ForwardRef('str')"),
      ("value", feature "ForwardRef" "ForwardRef('Any')")])
  else if name = "__orig_bases__" then some (tuple [feature "function" ""])
  else none

/-- What is known of an identifier of a kind. -/
def idFact? (kind : IdKind) (name : String) : Option Value :=
  if name = "TAG" then some (text kind.tag)
  else if name = "__module__" then some (text "rgbcore.commit")
  else if name = "__annotations__" then some (ofFields [("TAG", text "str")])
  else if name = "__dict__" then some (map [])
  else if name = "__doc__" then
    match kind with
    | .plain => some (text "32-byte identifier. Subclasses name the identifier class.")
    | .contract => some (text "Contract id: the operation id of the contract genesis.")
    | .transaction =>
      some (text "Bitcoin transaction id. Displayed byte-reversed, as bitcoin does.")
    | _ => some null
  else none

/-- What is known of a record of a declared type. -/
def recordFact? (type : RecordType) (fields : List (String × Value)) (name : String) :
    Option Value :=
  if name = "__match_args__" then some (tuple (type.fields.map text))
  else if name = "__weakref__" then some null
  else if name = "__dict__" then some (ofFields fields)
  else if name = "__module__" then some (text "types")
  else if name = "__doc__" then some description
  else if name = "__annotations__" then
    some (ofFields (type.fields.map fun field => (field, description)))
  else if name = "__dataclass_fields__" then
    some (ofFields (type.fields.map fun field => (field, feature "Field" "")))
  else if name = "__dataclass_params__" then some (feature "_DataclassParams" "")
  else none

/-- The type of the members of an enumeration, as a feature. -/
def memberType (e : Enumeration) : Value := feature "EnumType" ("<enum '" ++ e.name ++ "'>")

/-- A member of an enumeration by one of its names. -/
def memberNamed? (e : Enumeration) (name : String) : Option Value :=
  (e.named? name).map fun (n, tag) => member e n tag

/-- What is known of a member of an enumeration: its own name and tag, and, unless they have the
same name, every member of the enumeration. -/
def memberFact? (e : Enumeration) (own : String) (tag : Int) (name : String) : Option Value :=
  if name = "name" || name = "_name_" then some (text own)
  else if name = "value" || name = "_value_" then some (int tag)
  else if name = "_sort_order_" then some (ofNat (e.position own))
  else if name = "__objclass__" then some (memberType e)
  else if (e.attribute? name).isSome then (e.attribute? name).map int
  else if name = "__dict__" then
    some (ofFields [("_value_", int tag), ("_name_", text own), ("__objclass__", (memberType e)),
      ("_sort_order_", ofNat (e.position own))])
  else if name = "__doc__" then some null
  else if name = "__module__" then some description
  else if name = "_member_type_" then some (feature "type" "<class 'int'>")
  else if name = "_member_names_" then some (ofTexts (e.members.map Prod.fst))
  else if name = "_member_map_" then
    some (map (e.names.filterMap fun (n, _) => (memberNamed? e n).map fun m => (text n, m)))
  else if name = "_value2member_map_" then
    some (map (e.members.map fun (n, t) => (ofNat t, member e n t)))
  else if name = "_unhashable_values_" then some (list [])
  else if name = "_use_args_" then some (bool true)
  else (memberNamed? e name) <|> numberFact? tag name

/-- The facts about a value by name. -/
def fact? (v : Value) (name : String) : Option Value :=
  match v with
  | null => if name = "__doc__" then some null else none
  | member e own tag => memberFact? e own tag name
  | tagged _ _ => taggedFact? name
  | declared type fields => recordFact? type fields name
  | id kind _ => idFact? kind name
  | v =>
    if name = "__doc__" then some description
    else match v with
      | bool b => numberFact? (if b then 1 else 0) name
      | int n => numberFact? n name
      | list _ => if name = "__hash__" then some null else none
      | _ => none

/-- The type of a value, as a feature. -/
def typeFeature : Value → Value
  | member e _ _ => memberType e
  | tagged _ _ => feature "type" "<class 'rgbcore.strict.composite.Tagged'>"
  | declared type _ => feature "type" ("<class 'types." ++ type.name ++ "'>")
  | id kind _ => feature "type" ("<class 'rgbcore.commit." ++ kind.name ++ "'>")
  | v => feature "type" ("<class '" ++ v.typeName ++ "'>")

/-- What a value that is no mapping answers to by name: a part, a fact, its type or an operation. -/
def feature? (v : Value) (name : String) : Option Value :=
  v.part? name <|> v.fact? name <|>
    (if name = "__class__" then some v.typeFeature else none) <|>
    operation? v.operations name

end StrictContract.Value
