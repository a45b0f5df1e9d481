import StrictContract.Identifier
import StrictContract.Text.Numeral

/-! # Failures — causes, the paths on which they travel, and their wording

A **cause** says what is wrong; `Cause.message` is the only place that puts it into words, and
`Cause.kind` sorts it into one of the fifteen kinds of error. A **strict error** is a cause with the
path of the offending field: every enclosing structure prefixes its own segment with
`StrictError.within`. A **failure** is either a strict error or a **misuse**: an operation was given
something it cannot work with at all. -/

namespace StrictContract

/-! ## Kinds of error -/

/-- The kinds of error. -/
inductive ErrorKind where
  | strict
  | malformedEncoding
  | integerOverflow
  | lengthOutOfRange
  | cardinalityViolation
  | invalidCharset
  | orderingViolation
  | duplicateKey
  | unknownTag
  | unresolvedTypeReference
  | invalidTypeLib
  | schemaViolation
  | undeclaredField
  | danglingReference
  | identifierMismatch
deriving DecidableEq

namespace ErrorKind

/-- Every kind of error. -/
def all : List ErrorKind :=
  [strict, malformedEncoding, integerOverflow, lengthOutOfRange, cardinalityViolation,
   invalidCharset, orderingViolation, duplicateKey, unknownTag, unresolvedTypeReference,
   invalidTypeLib, schemaViolation, undeclaredField, danglingReference, identifierMismatch]

/-- The name of the kind. -/
def name : ErrorKind → String
  | strict => "StrictError"
  | malformedEncoding => "MalformedEncoding"
  | integerOverflow => "IntegerOverflow"
  | lengthOutOfRange => "LengthOutOfRange"
  | cardinalityViolation => "CardinalityViolation"
  | invalidCharset => "InvalidCharset"
  | orderingViolation => "OrderingViolation"
  | duplicateKey => "DuplicateKey"
  | unknownTag => "UnknownTag"
  | unresolvedTypeReference => "UnresolvedTypeReference"
  | invalidTypeLib => "TypeLibError"
  | schemaViolation => "SchemaViolation"
  | undeclaredField => "UndeclaredField"
  | danglingReference => "DanglingReference"
  | identifierMismatch => "IdentifierMismatch"

/-- The kind with a given name. -/
def ofName? (s : String) : Option ErrorKind := all.find? fun k => k.name == s

/-- The machine-readable code of the kind. -/
def code : ErrorKind → String
  | strict => "strict_error"
  | malformedEncoding => "malformed_encoding"
  | integerOverflow => "integer_overflow"
  | lengthOutOfRange => "length_out_of_range"
  | cardinalityViolation => "cardinality_violation"
  | invalidCharset => "invalid_charset"
  | orderingViolation => "ordering_violation"
  | duplicateKey => "duplicate_key"
  | unknownTag => "unknown_tag"
  | unresolvedTypeReference => "unresolved_type_reference"
  | invalidTypeLib => "invalid_type_lib"
  | schemaViolation => "schema_violation"
  | undeclaredField => "undeclared_field"
  | danglingReference => "dangling_reference"
  | identifierMismatch => "identifier_mismatch"

end ErrorKind

/-! ## Causes -/

/-- What a schema violation found in place of what it expected. -/
inductive Found where
  | count (n : Int)
  | text (s : String)
deriving DecidableEq

/-- The finding as text. -/
def Found.shown : Found → String
  | .count n => toString n
  | .text s => s

/-- What is wrong. Arguments named `shown`, and all other strings, are already rendered. -/
inductive Cause where
  /-- The data ends before a read of `needed` bytes is complete. -/
  | unexpectedEnd (offset needed left : Nat)
  /-- Bytes are left after a complete value. -/
  | trailing (count offset : Nat)
  /-- A boolean byte is neither zero nor one. -/
  | invalidBool (byte : Nat)
  /-- A presence byte is neither zero nor one. -/
  | invalidPresence (byte : Nat)
  /-- A code point is no Unicode scalar value. -/
  | invalidScalar (code : Nat)
  /-- A value is of another type than wanted. -/
  | wrongType (wanted got : String)
  /-- The unit type is given a value. -/
  | notUnit (shown : String)
  /-- A single character is wanted. -/
  | notCharacter (shown : String)
  /-- A mapping lacks the key of a field. -/
  | missingField (name : String)
  /-- A value of the given type has no such field. -/
  | noField (type name : String)
  /-- A positional record has another number of items. -/
  | tupleArity (wanted got : Nat)
  /-- A value is of no variant of a union. -/
  | noVariant (type union : String)
  /-- A domain tag breaks the rules for tags. -/
  | invalidTag (shown : String)
  /-- A payload to commit to is no byte string. -/
  | payloadType (got : String)
  /-- An identifier is not 32 bytes long. -/
  | identifierLength (name : String) (got : Nat)
  /-- A text is no hexadecimal text. -/
  | invalidHex
  /-- An integer exceeds its width. -/
  | doesNotFit (value : Int) (type : String)
  /-- A byte array has another size. -/
  | byteCount (wanted got : Nat)
  /-- An array has another number of items. -/
  | itemCount (wanted got : Nat)
  /-- A byte string is too short or too long. -/
  | byteLength (n min max : Nat)
  /-- A string is too short or too long. -/
  | stringLength (n min max : Nat)
  /-- A collection has too few or too many entries. -/
  | cardinality (n min max : Nat)
  /-- The bounds of a definition are in the wrong order. -/
  | sizingInverted (min max : String)
  /-- A primitive definition has a width that does not exist. -/
  | primitiveWidth (shown : String)
  /-- An array definition has no items. -/
  | emptyArray
  /-- A mapping holds more types than a type system may. -/
  | tooManyTypes (n limit : Nat)
  /-- A type system can take no further type. -/
  | typeSystemFull (limit : Nat)
  /-- A character is outside its charset. -/
  | charNotAllowed (shown : String) (position : Nat) (charset : String)
  /-- A byte of a string is not ASCII. -/
  | nonAscii (position : Nat)
  /-- An entry stands before an entry with a smaller key. -/
  | outOfOrder (label : String)
  /-- An entry has the key of another entry. -/
  | duplicateEntry (label : String)
  /-- A definition gives a name or a tag twice. -/
  | duplicateName (what shown : String)
  /-- A discriminant byte is not declared. -/
  | unknownTag (tag : Nat) (what name : String)
  /-- A union has no variant of that name. -/
  | unknownVariant (union name : String)
  /-- A value is no member of an enumeration. -/
  | notMember (shown name : String)
  /-- A definition refers to a type that has to be inserted first. -/
  | referenceBeforeDefinition (kind id : String)
  /-- A loaded definition refers to a type that was not loaded. -/
  | referenceMissing (id : String)
  /-- A type system does not hold a type. -/
  | typeAbsent (id : String)
  /-- A definition is carried under another id than its own. -/
  | carriedType (actual : String)
  /-- A qualified name names another library. -/
  | foreignLibrary (name library : String)
  /-- A library declares no such name. -/
  | noTypeNamed (library name : String)
  /-- A library uses one that is not at hand. -/
  | missingDependency (library dependency : String)
  /-- No library has that name. -/
  | unknownLibrary (name : String)
  /-- No type has that name. -/
  | unknownType (name : String)
  /-- A declaration refers to itself through others. -/
  | cyclicReference (name : String)
  /-- Libraries use each other in a circle. -/
  | cyclicLibraries (chain : List String)
  /-- A declaration is neither a name nor a mapping. -/
  | declarationType (got : String)
  /-- A string with a first charset of its own may be empty. -/
  | emptySplitString
  /-- A declaration has none of the known forms. -/
  | unknownForm (shown : String)
  /-- A library file is not readable as a document. -/
  | unreadableFile (file : String)
  /-- A library file does not hold a mapping. -/
  | fileNotMapping (file : String)
  /-- A library document breaks its schema at the given places. -/
  | rejectedDocument (paths : List String)
  /-- A schema lists a field of a type it does not declare. -/
  | undeclaredType (what : String) (type : Int)
  /-- An operation carries a field that its schema does not allow. -/
  | notAllowed (what : String) (type : Int)
  /-- A transition is of a type that its schema does not declare. -/
  | undeclaredTransition (shown schema : String)
  /-- An occurrence bound has its ends in the wrong order. -/
  | invertedBound (bound : String)
  /-- A state value is no encoding of its declared type. -/
  | stateMismatch (type code error : String)
  /-- A field occurs too often or not often enough. -/
  | occurrences (count : Nat) (bound : String)
  /-- A global list is longer than its type allows. -/
  | tooManyItems (limit : String) (count : Nat)
  /-- Assignments are of another kind than declared. -/
  | kindMismatch (declared got : String)
  /-- A genesis seal names no transaction. -/
  | witnessRelativeSeal
  /-- A genesis names another schema than the one carried. -/
  | schemaReference (referenced carried : String)
  /-- An operation is carried under another id than its own. -/
  | carriedOperation (key actual : String)
  /-- A transition belongs to another contract. -/
  | contractReference (referenced expected : String)
  /-- An input spends an operation that is not carried. -/
  | unknownOperation (input op : String)
  /-- An input spends an assignment that does not exist. -/
  | missingAssignment (input : String)
  /-- The input map does not give an input to its operation. -/
  | unmappedInput (input op : String)
  /-- A terminal names a bundle that is not carried. -/
  | unknownBundle (id : String)
  /-- A terminal seal is the seal of no confidential assignment of its bundle. -/
  | unmatchedSeal (shown : String)
  /-- A script library is not carried. -/
  | missingLibrary (id : String)
  /-- A violation in the words of its reporter. -/
  | statedViolation (expected : String) (actual : Found) (message : String)
  /-- An error in the words of its reporter. -/
  | stated (kind : ErrorKind) (message : String)
deriving DecidableEq

namespace Cause

/-- The kind of error that a cause makes. -/
def kind : Cause → ErrorKind
  | unexpectedEnd .. | trailing .. | invalidBool .. | invalidPresence .. | invalidScalar ..
  | wrongType .. | notUnit .. | notCharacter .. | missingField .. | noField .. | tupleArity ..
  | noVariant .. | invalidTag .. | payloadType .. | identifierLength .. | invalidHex =>
    .malformedEncoding
  | doesNotFit .. => .integerOverflow
  | byteCount .. | itemCount .. | byteLength .. | stringLength .. | sizingInverted ..
  | primitiveWidth .. | emptyArray => .lengthOutOfRange
  | cardinality .. | tooManyTypes .. | typeSystemFull .. => .cardinalityViolation
  | charNotAllowed .. | nonAscii .. => .invalidCharset
  | outOfOrder .. => .orderingViolation
  | duplicateEntry .. | duplicateName .. => .duplicateKey
  | unknownTag .. | unknownVariant .. | notMember .. => .unknownTag
  | referenceBeforeDefinition .. | referenceMissing .. | typeAbsent .. | foreignLibrary ..
  | noTypeNamed .. | missingDependency .. | unknownLibrary .. | unknownType .. | cyclicReference ..
  | cyclicLibraries .. => .unresolvedTypeReference
  | carriedType .. | carriedOperation .. => .identifierMismatch
  | declarationType .. | emptySplitString | unknownForm .. | unreadableFile .. | fileNotMapping ..
  | rejectedDocument .. => .invalidTypeLib
  | undeclaredType .. | notAllowed .. | undeclaredTransition .. => .undeclaredField
  | invertedBound .. | stateMismatch .. | occurrences .. | tooManyItems .. | kindMismatch ..
  | witnessRelativeSeal | statedViolation .. => .schemaViolation
  | schemaReference .. | contractReference .. | unknownOperation .. | missingAssignment ..
  | unmappedInput .. | unknownBundle .. | unmatchedSeal .. | missingLibrary .. => .danglingReference
  | stated kind _ => kind

/-- A closed interval in words. -/
def interval (min max : Nat) : String := s!"[{min}, {max}]"

/-- The wording of a cause. -/
def message : Cause → String
  | unexpectedEnd offset needed left =>
    s!"unexpected end of data at offset {offset} (needed {needed} bytes, {left} left)"
  | trailing count offset => s!"{count} trailing bytes after offset {offset}"
  | invalidBool byte => "invalid bool byte 0x" ++ Text.hexPadded 2 byte
  | invalidPresence byte => "invalid presence byte 0x" ++ Text.hexPadded 2 byte
  | invalidScalar code => "invalid unicode scalar 0x" ++ Text.hexPadded 1 code
  | wrongType wanted got => s!"expected {wanted}, got {got}"
  | notUnit shown => s!"unit type holds no value, got {shown}"
  | notCharacter shown => s!"expected a single character, got {shown}"
  | missingField name => s!"missing field '{name}'"
  | noField type name => s!"{type} has no field '{name}'"
  | tupleArity wanted got => s!"expected {wanted} tuple items, got {got}"
  | noVariant type union => s!"{type} matches no variant of union {union}"
  | invalidTag shown => s!"invalid commitment tag {shown}"
  | payloadType got => s!"commitment payload must be bytes, got {got}"
  | identifierLength name got => s!"{name} must be 32 bytes, got {got}"
  | invalidHex => "invalid hex"
  | doesNotFit value type => s!"{value} does not fit {type}"
  | byteCount wanted got => s!"expected exactly {wanted} bytes, got {got}"
  | itemCount wanted got => s!"expected exactly {wanted} items, got {got}"
  | byteLength n min max => s!"byte length {n} outside " ++ interval min max
  | stringLength n min max => s!"string length {n} outside " ++ interval min max
  | cardinality n min max => s!"{n} items outside " ++ interval min max
  | sizingInverted min max => s!"sizing min {min} exceeds max {max}"
  | primitiveWidth shown => s!"primitive width {shown} is not one of (0, 1, 2, 3, 4, 8, 16, 32)"
  | emptyArray => "array length must be positive"
  | tooManyTypes n limit => s!"{n} types exceed {limit}"
  | typeSystemFull limit => s!"type system is full ({limit} entries)"
  | charNotAllowed shown position charset =>
    s!"character {shown} at position {position} is not in charset {charset}"
  | nonAscii position => s!"non-ascii byte at position {position}"
  | outOfOrder label => s!"entry {label} is out of canonical order"
  | duplicateEntry label => s!"duplicate entry {label}"
  | duplicateName what shown => s!"duplicate {what} {shown}"
  | unknownTag tag what name => "unknown tag 0x" ++ Text.hexPadded 2 tag ++ s!" for {what} {name}"
  | unknownVariant union name => s!"union {union} has no variant '{name}'"
  | notMember shown name => s!"{shown} is not a variant of enum {name}"
  | referenceBeforeDefinition kind id => s!"{kind} references {id} before it is defined"
  | referenceMissing id => s!"reference to {id} is not in the type system"
  | typeAbsent id => s!"type {id} is not in the type system"
  | carriedType actual => s!"carried id does not match recomputed {actual}"
  | foreignLibrary name library => s!"type '{name}' is not from library {library}"
  | noTypeNamed library name => s!"library {library} has no type named '{name}'"
  | missingDependency library dependency =>
    s!"library {library} uses {dependency}, which was not provided"
  | unknownLibrary name => s!"unknown library '{name}'"
  | unknownType name => s!"unknown type '{name}'"
  | cyclicReference name => s!"cyclic reference through '{name}'"
  | cyclicLibraries chain => "cyclic library dependency " ++ " -> ".intercalate chain
  | declarationType got => s!"declaration must be a name or a mapping, got {got}"
  | emptySplitString => "a string with its own first charset cannot be empty"
  | unknownForm shown => s!"unknown declaration form {shown}"
  | unreadableFile file => s!"invalid YAML in {file}"
  | fileNotMapping file => s!"{file}: type library must be a mapping"
  | rejectedDocument paths => "; ".intercalate paths
  | undeclaredType what type => s!"{what} type {type} is not declared by the schema"
  | notAllowed what type => s!"{what} type {type} is not allowed here"
  | undeclaredTransition shown schema =>
    s!"transition type {shown} is not declared by schema {schema}"
  | invertedBound bound => s!"inverted occurrence bound {bound}"
  | stateMismatch _ _ error => s!"state does not match its type: {error}"
  | occurrences count bound => s!"{count} occurrences outside bound {bound}"
  | tooManyItems limit count => s!"expected at most {limit} items, found {count}"
  | kindMismatch .. => "state kind mismatch"
  | witnessRelativeSeal => "genesis seals must name their transaction"
  | schemaReference referenced carried =>
    s!"genesis references schema {referenced}, consignment carries {carried}"
  | carriedOperation key actual => s!"carried op id {key} does not match recomputed {actual}"
  | contractReference referenced expected =>
    s!"transition references contract {referenced}, expected {expected}"
  | unknownOperation input op => s!"input {input} spends unknown operation {op}"
  | missingAssignment input => s!"input {input} spends an assignment its operation does not have"
  | unmappedInput input op => s!"input {input} is not mapped to {op} by the bundle input map"
  | unknownBundle id => s!"terminal references unknown bundle {id}"
  | unmatchedSeal shown =>
    s!"terminal seal {shown} matches no confidential assignment of the bundle"
  | missingLibrary id => s!"validation script library {id} is not carried by the consignment"
  | statedViolation _ _ message => message
  | stated _ message => message

/-- A schema violation in other words; without words it tells what was expected and found. -/
def violation (expected : String) (found : Found) (message : String) : Cause :=
  statedViolation expected found <|
    if message.isEmpty then "expected " ++ expected ++ ", found " ++ found.shown else message

/-- What a schema violation expected and what it found. -/
def expectation? : Cause → Option (String × Found)
  | invertedBound bound => some ("min <= max", .text bound)
  | stateMismatch type code _ => some (s!"value of type {type}", .text code)
  | occurrences count bound => some (bound, .count count)
  | tooManyItems limit count => some (s!"at most {limit} items", .count count)
  | kindMismatch declared got => some (declared, .text got)
  | witnessRelativeSeal => some ("seal with a txid", .text "witness-relative seal")
  | statedViolation expected actual _ => some (expected, actual)
  | _ => none

end Cause

/-! ## Strict errors -/

/-- A **strict error**: a cause and the path of the offending field, outermost segment first. No
segment of a path is empty. -/
structure StrictError where
  cause : Cause
  path : List String
deriving DecidableEq

namespace StrictError

/-- Prefixes the path with an outer segment; an empty segment adds nothing. -/
def within (segment : String) (e : StrictError) : StrictError :=
  if segment.isEmpty then e else { e with path := segment :: e.path }

/-- An error at the place named by one segment. -/
def of (segment : String) (cause : Cause) : StrictError :=
  StrictError.within segment ⟨cause, []⟩

/-- How a segment joins the segments before it: an index in brackets directly, a name after a
dot. -/
def joined (segment : String) : String :=
  if segment.startsWith "[" then segment else "." ++ segment

/-- The path as one text. -/
def field (e : StrictError) : String :=
  match e.path with
  | [] => ""
  | first :: rest => first ++ String.join (rest.map joined)

/-- The kind of error. -/
def kind (e : StrictError) : ErrorKind := e.cause.kind

/-- The machine-readable code of the error. -/
def code (e : StrictError) : String := e.kind.code

/-- The wording without the path. -/
def message (e : StrictError) : String := e.cause.message

/-- The wording behind the path, if there is one. -/
def rendered (e : StrictError) : String :=
  if e.path.isEmpty then e.message else e.field ++ ": " ++ e.message

end StrictError

/-! ## Failures -/

/-- What is wrong with a value of the right type. -/
inductive ValueFault where
  /-- A number of parts is wanted and there are fewer. -/
  | tooFewParts (wanted got : Nat)
  /-- A number of parts is wanted and there are more. -/
  | tooManyParts (wanted : Nat)
  /-- An item of a sequence of pairs has another number of parts. -/
  | notPair (index got : Nat)
  /-- A maximum length is negative. -/
  | negativeMaximum
  /-- A maximum length needs a wider length field than there is. -/
  | maximumTooLarge (max : Int)
  /-- Bounds are negative or in the wrong order. -/
  | invalidBounds (min max : Int)
  /-- There is no unsigned integer of this width. -/
  | unsignedWidth (bits : Int)
  /-- There is no signed integer of this width. -/
  | signedWidth (bits : Int)
  /-- A byte array has no bytes. -/
  | emptyByteArray
  /-- A string with a first charset of its own may be empty. -/
  | emptySplitText (min : Int)
  /-- An array has no items. -/
  | emptyArray
  /-- Absence would be ambiguous. -/
  | ambiguousAbsence (inner : String)
  /-- Two fields of a struct share a name. -/
  | duplicateFields (struct : String)
  /-- A wrapped struct has other than one field. -/
  | wrappedArity (struct : String)
  /-- A union has no variants. -/
  | noVariants (union : String)
  /-- Two variants of a union share a name. -/
  | duplicateVariants (union : String)
  /-- The tag of a union variant is no byte. -/
  | unionTag (union : String) (tag : Int)
  /-- The tag of an enumeration member is no byte. -/
  | enumTag (enumeration : String) (tag : Int)
  /-- A member of an enumeration has a name that is reserved. -/
  | reservedName (name : String)
  /-- A member of an enumeration has a name that no member can have. -/
  | invalidName (name : String)
  /-- A number stands for no member of an enumeration. -/
  | noMember (shown enumeration : String)
  /-- What the records of a type have for a field that is not given could be changed. -/
  | sharedField (shown field : String)
  /-- The name of a type has a null character. -/
  | nullInName
  /-- The name or the text of a variable has a null character. -/
  | nullInVariable
  /-- The name of a variable has an equals sign. -/
  | variableName
  /-- A text is not of pairs of hexadecimal digits. -/
  | notHex (position : Nat)
  /-- A text is no numeral. -/
  | unreadableNumber (fault : Text.NumeralFault)
  /-- There is no layer of that name. -/
  | noLayer (name : String)
  /-- A name stands for something that is no level. -/
  | noLevel (shown : String)
  /-- A number of bytes is negative. -/
  | negativeCount
  /-- A number is no byte. -/
  | notByte
  /-- A seal that names no transaction has no outpoint. -/
  | noOutpoint
  /-- A consignment belongs to another contract. -/
  | foreignConsignment (got wanted : String)
deriving DecidableEq

/-- The wording of a value fault. -/
def ValueFault.message : ValueFault → String
  | tooFewParts wanted got => s!"not enough values to unpack (expected {wanted}, got {got})"
  | tooManyParts wanted => s!"too many values to unpack (expected {wanted})"
  | notPair index got =>
    s!"dictionary update sequence element #{index} has length {got}; 2 is required"
  | negativeMaximum => "maximum length must be non-negative"
  | maximumTooLarge max => s!"maximum length {max} exceeds the 32-bit prefix tier"
  | invalidBounds min max => s!"invalid bounds [{min}, {max}]"
  | unsignedWidth bits => s!"unsupported unsigned width {bits}"
  | signedWidth bits => s!"unsupported signed width {bits}"
  | emptyByteArray => "byte array size must be positive"
  | emptySplitText min => s!"string with a distinct first charset needs min length >= 1, got {min}"
  | emptyArray => "array length must be positive"
  | ambiguousAbsence inner => s!"Option cannot wrap {inner}: its None would be ambiguous"
  | duplicateFields struct => s!"struct {struct} has duplicate field names"
  | wrappedArity struct => s!"wrapped struct {struct} must have exactly one field"
  | noVariants union => s!"union {union} has no variants"
  | duplicateVariants union => s!"union {union} has duplicate variant names"
  | unionTag union tag => s!"union {union} tag {tag} does not fit a byte"
  | enumTag enumeration tag => s!"enum {enumeration} tag {tag} does not fit a byte"
  | reservedName name =>
    "_sunder_ names, such as " ++ Text.quoted name ++ ", are reserved for future Enum use"
  | invalidName name => s!"invalid enum member name(s) '{name}'"
  | noMember shown enumeration => shown ++ " is not a valid " ++ enumeration
  | sharedField shown field =>
    "mutable default " ++ shown ++ " for field " ++ field ++ " is not allowed: use default_factory"
  | nullInName => "type name must not contain null characters"
  | nullInVariable => "embedded null byte"
  | variableName => "illegal environment variable name"
  | notHex position => s!"non-hexadecimal number found in fromhex() arg at position {position}"
  | unreadableNumber fault => fault.message
  | noLayer name => Text.quoted name ++ " is not a valid Layer"
  | noLevel shown => "Unknown level: " ++ Text.quoted shown
  | negativeCount => "negative count"
  | notByte => "bytes must be in range(0, 256)"
  | noOutpoint => "seal refers to the witness transaction and has no outpoint yet"
  | foreignConsignment got wanted => s!"consignment is for contract {got}, not {wanted}"

/-- A **misuse**: an operation was given something it is not defined for. -/
inductive Misuse where
  /-- The operation is not defined for a value of this type. -/
  | wrongType
  /-- The value has no such part. -/
  | noSuchPart
  /-- A mapping has no such key. -/
  | missingKey (message : String)
  /-- The type is right and the value is not. -/
  | badValue (fault : ValueFault)
  /-- A number is too large for what is to be done with it. -/
  | outOfRange
  /-- A name cannot be given to what is to have it. -/
  | unusableName
  /-- The environment has no such variable and cannot have one. -/
  | unusableVariable
deriving DecidableEq

/-- Two records with different identities cannot be merged. -/
inductive MergeFault where
  | witness (a b : Txid)
  | bundle (a b : BundleId)
deriving DecidableEq

/-- The wording of a failed merge. -/
def MergeFault.message : MergeFault → String
  | witness a b => "witness txid mismatch: " ++ a.text ++ " != " ++ b.text
  | bundle a b => "bundle id mismatch: " ++ a.text ++ " != " ++ b.text

/-- What is wrong with a setting or with the path or document that names it. -/
inductive SettingFault where
  /-- No setting has that path. -/
  | invalidPath (path : String)
  /-- A document has a key that names nothing. -/
  | unknownKey (path : String)
  /-- A document gives a section something else than a mapping. -/
  | invalidSection (path : String)
  /-- There is no such file. -/
  | missingFile (file : String)
  /-- A file is not readable as a document. -/
  | unreadableFile (file : String)
  /-- A document is no mapping. -/
  | rootNotMapping (file : String)
  /-- A setting cannot have a value. -/
  | invalidValue (shown : String)
  /-- The text of a variable is no number. -/
  | unreadableVariable (name text : String) (fault : Text.NumeralFault)
deriving DecidableEq

namespace SettingFault

/-- The wording of a setting fault. -/
def message : SettingFault → String
  | invalidPath path => "Invalid config path: " ++ path
  | unknownKey path => "Unknown config key: " ++ path
  | invalidSection path => "Invalid config section: " ++ path
  | missingFile file => "Configuration file not found: " ++ file
  | unreadableFile file => "Invalid YAML in " ++ file
  | rootNotMapping file => "Configuration root must be a mapping: " ++ file
  | invalidValue shown => "Invalid value for config: " ++ shown
  | unreadableVariable name text fault =>
    name ++ "=" ++ Text.quoted text ++ ": " ++ fault.message

/-- Whether the fault lies in a value. -/
def isInvalidValue : SettingFault → Bool
  | invalidValue _ | unreadableVariable _ _ _ => true
  | _ => false

end SettingFault

/-- Why an operation gave no result. -/
inductive Failure where
  /-- Something breaks a rule. -/
  | strict (error : StrictError)
  /-- The operation is not defined for what it was given. -/
  | misuse (reason : Misuse)
  /-- Two records do not belong together. -/
  | unmergeable (fault : MergeFault)
  /-- A record that is expected to be kept is absent. -/
  | absent (what key : String)
  /-- A consignment breaks rules. -/
  | rejected (errors : List StrictError)
  /-- A setting cannot be read or given a value. -/
  | setting (fault : SettingFault)
deriving DecidableEq

namespace Failure

/-- Prefixes the path of a strict error; other failures have no path. -/
def within (segment : String) : Failure → Failure
  | strict e => strict (e.within segment)
  | f => f

/-- A strict error without a path. -/
def cause (c : Cause) : Failure := strict ⟨c, []⟩

end Failure

/-- Fails with a cause at the innermost place. -/
def fail {α : Type} (c : Cause) : Except Failure α := .error (.cause c)

/-- Fails with a misuse. -/
def misuse {α : Type} (m : Misuse) : Except Failure α := .error (.misuse m)

/-- Fails because of a value that is of the right type. -/
def reject {α : Type} (f : ValueFault) : Except Failure α := misuse (.badValue f)

/-- Runs a computation inside the place named by a segment: its errors are prefixed with it. -/
def inside {α : Type} (segment : String) (x : Except Failure α) : Except Failure α :=
  match x with
  | .ok a => .ok a
  | .error e => .error (e.within segment)

@[simp] theorem inside_ok {α : Type} (segment : String) (a : α) :
    inside segment (.ok a : Except Failure α) = .ok a := rfl

@[simp] theorem inside_error {α : Type} (segment : String) (e : Failure) :
    inside segment (.error e : Except Failure α) = .error (e.within segment) := rfl

/-! ## Collected errors -/

/-- The wording for a record that is absent. -/
def absenceMessage (what key : String) : String := what ++ " " ++ key ++ " is absent from the stash"

/-- The wording of a rejection, which collects errors. -/
def rejectionMessage (errors : List StrictError) : String :=
  s!"Consignment rejected ({errors.length} violations): " ++
    "; ".intercalate (errors.map StrictError.rendered)

end StrictContract
