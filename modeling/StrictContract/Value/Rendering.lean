import StrictContract.Digest.Commitment
import StrictContract.Value.Place

/-! # Rendering values — how they appear inside messages

A value is written in full as its **literal** form, in which texts are quoted and records name their
fields; assignments list their items, a type system counts its types, a script library goes by its
id. On its own, as a label, a value is **displayed**: texts and identifiers as they are, members of
enumerations as their number, references to outputs and assignments in their short form. -/

namespace StrictContract.Value

mutual

/-- The **literal** form of a value. -/
def literal : Value → String
  | null => "None"
  | bool true => "True"
  | bool false => "False"
  | int n => toString n
  | text s => Text.quoted s
  | broken t => t.quoted
  | bytes octets => Text.quotedOctets octets
  | id _ identifier => identifier.described
  | list items => "[" ++ ", ".intercalate (literals items) ++ "]"
  | tuple [item] => "(" ++ literal item ++ ",)"
  | tuple items => "(" ++ ", ".intercalate (literals items) ++ ")"
  | set [] => "frozenset()"
  | set items =>
    "frozenset(\x7b" ++ ", ".intercalate (arranged items (literals items)) ++ "\x7d)"
  | map entries => "\x7b" ++ ", ".intercalate (entryLiterals entries) ++ "\x7d"
  | tagged variant value =>
    "Tagged(name=" ++ Text.quoted variant ++ ", value=" ++ literal value ++ ")"
  | record "TypeSystem" [(_, map types)] => s!"TypeSystem({types.length} types)"
  | record "Lib" [(_, bytes code)] =>
    "Lib(" ++ (Id.ofContent .library code).text ++ s!", {code.length} bytes)"
  | record type [("items", tuple items)] =>
    type ++ "([" ++ ", ".intercalate (literals items) ++ "])"
  | record type fields => type ++ "(" ++ ", ".intercalate (fieldLiterals fields) ++ ")"
  | declared type fields => type.name ++ "(" ++ ", ".intercalate (fieldLiterals fields) ++ ")"
  | member enumeration name tag =>
    "<" ++ enumeration.name ++ "." ++ name ++ ": " ++ toString tag ++ ">"
  | feature _ shown => shown

/-- The literal forms of the items of a sequence. -/
def literals : List Value → List String
  | [] => []
  | v :: rest => literal v :: literals rest

/-- The literal forms of the entries of a mapping. -/
def entryLiterals : List (Value × Value) → List String
  | [] => []
  | (k, v) :: rest => (literal k ++ ": " ++ literal v) :: entryLiterals rest

/-- The literal forms of the fields of a record. -/
def fieldLiterals : List (String × Value) → List String
  | [] => []
  | (name, v) :: rest => (name ++ "=" ++ literal v) :: fieldLiterals rest

end

/-! ## Members that cannot be shown

An enumeration may take from its members the ability to be shown. -/

mutual

/-- Why a value has no literal form: what keeps the first member in it from having one. -/
def unshown? : Value → Option Misuse
  | list items => unshownItem? items
  | tuple items => unshownItem? items
  | set items => unshownItem? items
  | map entries => unshownEntry? entries
  | tagged _ value => unshown? value
  | declared _ fields => unshownField? fields
  | member enumeration _ _ =>
    if enumeration.lacks "__repr__" then some .wrongType
    else if enumeration.lacks "__class__" then some .noSuchPart
    else none
  | _ => none

/-- Why the items of a sequence have no literal forms. -/
def unshownItem? : List Value → Option Misuse
  | [] => none
  | v :: rest => unshown? v <|> unshownItem? rest

/-- Why the entries of a mapping have no literal forms. -/
def unshownEntry? : List (Value × Value) → Option Misuse
  | [] => none
  | (k, v) :: rest => unshown? k <|> unshown? v <|> unshownEntry? rest

/-- Why the fields of a record have no literal forms. -/
def unshownField? : List (String × Value) → Option Misuse
  | [] => none
  | (_, v) :: rest => unshown? v <|> unshownField? rest

end

/-- The literal form of a value that has one. -/
def shown (v : Value) : Except Failure String :=
  match v.unshown? with
  | some reason => misuse reason
  | none => .ok v.literal

/-! ## Display -/

/-- A single value **displayed** on its own. -/
def displayPart : Value → String
  | text s => s
  | broken t => t.shown
  | id _ identifier => identifier.text
  | member _ _ tag => toString tag
  | v => literal v

/-- A value **displayed** on its own. The parts of a reference to an assignment are separated by
slashes, those of an outpoint by a colon; bounds stand in brackets. -/
def display : Value → String
  | record "Opout" [(_, op), (_, type), (_, index)] =>
    displayPart op ++ "/" ++ displayPart type ++ "/" ++ displayPart index
  | record "Outpoint" [(_, transaction), (_, vout)] =>
    displayPart transaction ++ ":" ++ displayPart vout
  | record "Occurrences" [(_, min), (_, max)] =>
    "[" ++ displayPart min ++ ", " ++ displayPart max ++ "]"
  | v => displayPart v

/-- How an entry of a collection is named in a path: byte strings by their first eight bytes, other
values as they are displayed. -/
def label (v : Value) : String :=
  match v.octets? with
  | some octets => Octets.toHex (octets.take 8)
  | none => v.display

/-- The label of a value that has one. -/
def labelled (v : Value) : Except Failure String :=
  match v with
  | member enumeration _ _ =>
    if enumeration.lacks "__str__" then misuse .wrongType else .ok v.label
  | v =>
    match v.unshown? with
    | some reason => misuse reason
    | none => .ok v.label

end StrictContract.Value
