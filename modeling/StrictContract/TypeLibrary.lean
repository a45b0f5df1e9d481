import StrictContract.TypeLibrary.Form

/-! # Type libraries — declarations of types by name

A **type library** names its types and lets declarations refer to each other by name. It comes from
a document, which is checked against the form of type libraries, or from its parts, which are not.
Declarations are kept as they are offered; compiling the library says what they mean. -/

namespace StrictContract

/-- A **type library**. -/
structure TypeLibrary where
  name : String
  /-- The declarations by name, in order. -/
  declarations : List (Value × Value)
  /-- The names of the libraries it uses. -/
  uses : List String
  description : String

/-- What a file was found to hold. -/
inductive FileContent where
  /-- A document. -/
  | document (v : Value)
  /-- No readable document. -/
  | unreadable
  /-- There is no such file. -/
  | missing

namespace TypeLibrary

/-- The text that an entry of a document is; an absent or null entry is empty. -/
def textEntry (document : Value) (name : String) : String :=
  match document.entry? name with
  | some (.text s) => s
  | some (.broken t) => t.shown
  | _ => ""

/-- The name by which a rejected document is known. -/
def rejectedName (document : Value) : String :=
  match document.entry? "library" with
  | some v => v.display
  | none => ""

/-- The library of a document that is of the form of type libraries. -/
def ofDocument (document : Value) : Except Failure TypeLibrary := do
  let paths ← DocumentSchema.typeLibrary.check document
  if !paths.isEmpty then
    .error (.strict (.of (rejectedName document) (.rejectedDocument paths)))
  let uses := ((document.entry? "uses").bind Value.items?).getD []
  return {
    name := textEntry document "library"
    declarations := ((document.entry? "types").bind Value.entries?).getD []
    uses := uses.filterMap fun v => match v with | .text s => some s | _ => none
    description := textEntry document "description" }

/-- The library of a file, which has to hold a mapping. -/
def ofFile (file : String) (content : FileContent) : Except Failure TypeLibrary :=
  match content with
  | .document (.map entries) => ofDocument (.map entries)
  | .document _ => fail (.fileNotMapping file)
  | _ => fail (.unreadableFile file)

/-- The declarations that a list of pairs gives, counted from an index. -/
def pairsFrom : Nat → List Value → Except Failure (List (Value × Value))
  | _, [] => .ok []
  | i, v :: rest =>
    match v.items? with
    | some [k, x] =>
      if k.isKey then do return (k, x) :: (← pairsFrom (i + 1) rest) else misuse .wrongType
    | some items => reject (.notPair i items.length)
    | none => misuse .wrongType

/-- The entries of a mapping, or of a sequence of pairs. -/
def entriesOf (v : Value) : Except Failure (List (Value × Value)) :=
  match v with
  | .map entries => .ok entries
  | v =>
    match v.items? with
    | some items => do return Value.unique (← pairsFrom 0 items)
    | none => misuse .wrongType

/-- The library of unchecked parts. -/
def ofParts (name : String) (declarations : Value) (uses : List String) :
    Except Failure TypeLibrary := do
  return { name, declarations := ← entriesOf declarations, uses, description := "" }

end TypeLibrary

end StrictContract
