import StrictContract.Codec.Builtin
import StrictContract.Journal
import StrictContract.Text.Cut
import StrictContract.TypeLibrary
import StrictContract.TypeSystem.Derivation

/-! # Compilation — the type system behind the names of a library

Compiling a library inserts its declarations bottom-up into a type system: before a declaration come
those it refers to. A **symbolic system** is the result, a type system with an index of names.
Several libraries are compiled in the order in which they use each other. -/

namespace StrictContract

/-! ## Symbolic systems -/

/-- A **symbolic system**: a compiled library. -/
structure SymbolicSystem where
  library : String
  types : TypeSystem
  /-- The ids of the declared names, in the order in which they were compiled. -/
  names : List (String × SemId)

namespace SymbolicSystem

/-- Whether a name is declared. -/
def contains (sys : SymbolicSystem) (name : String) : Bool := (sys.names.lookup name).isSome

/-- The id of a declared name. -/
def resolveLocal (sys : SymbolicSystem) (name : String) : Except Failure SemId :=
  match sys.names.lookup name with
  | some sid => .ok sid
  | none => fail (.noTypeNamed sys.library name)

/-- The id of a declared name, which may be qualified with the name of this library. -/
def resolve (sys : SymbolicSystem) (name : String) : Except Failure SemId :=
  match Text.cutLast? '.' name with
  | some (library, localName) =>
    if library = sys.library then sys.resolveLocal localName
    else fail (.foreignLibrary name sys.library)
  | none => sys.resolveLocal name

/-- The first name with an id. -/
def nameOf? (sys : SymbolicSystem) (sid : SemId) : Option String :=
  (sys.names.find? fun (_, s) => s == sid).map Prod.fst

end SymbolicSystem

/-! ## Compiling declarations -/

/-- What is there while a library is compiled. -/
structure Workbench where
  types : TypeSystem
  /-- The ids of the names that are compiled, the latest last. -/
  names : List (String × SemId)

/-- A computation that compiles declarations. -/
abbrev Compiling : Type → Type := ExceptT Failure (StateM Workbench)

namespace Compiling

/-- Grows the type system. -/
def grow {α : Type} (g : TypeSystem.Growth α) : Compiling α := fun w =>
  let (r, ts) := g w.types
  (r, { w with types := ts })

/-- Inserts a draft. -/
def insert (d : Draft) : Compiling SemId := grow (TypeSystem.Growth.insert d)

/-- Gives the result of a computation that compiles nothing. -/
def given {α : Type} (x : Except Failure α) : Compiling α := fun w => (x, w)

/-- Names the place of errors that have none yet. -/
def placed {α : Type} (name : String) (x : Compiling α) : Compiling α := fun w =>
  match x w with
  | (.error (.strict e), w') =>
    (.error (.strict (if e.path.isEmpty then e.within name else e)), w')
  | r => r

/-- Remembers the id of a compiled name. -/
def name (declared : String) (sid : SemId) : Compiling Unit := fun w =>
  (.ok (), { w with names := w.names ++ [(declared, sid)] })

end Compiling

namespace TypeLibrary

/-- An entry that a mapping has to have. -/
def required (v : Value) (name : String) : Except Failure Value :=
  match v with
  | .map _ =>
    match v.entry? name with
    | some x => .ok x
    | none => misuse (.missingKey name)
  | _ => misuse .wrongType

/-- The entries of a value that has to be a mapping. -/
def mapping (v : Value) : Except Failure (List (Value × Value)) :=
  match v with
  | .map entries => .ok entries
  | _ => misuse .noSuchPart

/-- The single entry of a mapping. -/
def single (v : Value) : Except Failure (Value × Value) := do
  match ← mapping v with
  | [entry] => return entry
  | [] => reject (.tooFewParts 1 0)
  | _ => reject (.tooManyParts 1)

/-- The charset that a value names. -/
def charset (v : Value) : Except Failure Charset :=
  match v with
  | .text s =>
    match Charset.ofName? s with
    | some cs => .ok cs
    | none => misuse (.missingKey s)
  | v => if v.isKey then misuse (.missingKey v.display) else misuse .wrongType

/-- The name that a reference at a place has to be; no name has a surrogate in it. -/
def referenceName (place : String) (v : Value) : Except Failure String :=
  match v with
  | .text s => .ok s
  | .broken t => .error (.strict (.of place (.unknownType t.shown)))
  | v => if v.isKey && v.octets?.isNone then misuse .noSuchPart else misuse .wrongType

/-- A bound lowered by the character that stands in front. -/
def lowered (v : Value) : Except Failure Value :=
  match v.number? with
  | some n => .ok (.int (n - 1))
  | none => misuse .wrongType

section Forms

-- `ref` compiles a reference, given the place that it stands at.
variable (ref : Value → String → Compiling SemId)

/-- Inserts a union of declared variants, in the order of their tags. -/
def compileUnion (variants : Value) (name : String) : Compiling SemId := do
  let tagged ← .given do
    (← mapping variants).mapM fun (variant, v) => do return (variant, v, ← required v "tag")
  let sorted ← .given (Value.sortOn (fun (_, _, tag) => tag) tagged)
  let entries ← sorted.mapM fun (variant, v, tag) => do
    let sid ← ref (← .given (required v "type")) name
    if tag.isKey then return (tag, variant, sid) else .given (misuse .wrongType)
  .insert (.union (Value.unique entries))

/-- Inserts a struct of declared fields. -/
def compileStruct (fields : Value) (name : String) : Compiling SemId := do
  let entries ← (← .given fields.iterate).mapM fun entry => do
    let (field, ty) ← .given (single entry)
    return (field, ← ref ty (name ++ "." ++ field.display))
  .insert (.struct entries)

/-- Inserts strings over charsets. The bounds count all characters. -/
def compileText (decl first : Value) (name : String) : Compiling SemId := do
  let rest ← .given (charset first)
  let first ← .given (charset ((decl.entry? "first").getD first))
  let min := (decl.entry? "min").getD (.int 1)
  let max := (decl.entry? "max").getD (.int 0xff)
  .given (Draft.checkSizing min max)
  let split := Codec.isSplit first rest
  if split then
    if ← .given (min.precedes (.int 1)) then
      .given (.error (.strict (.of name .emptySplitString)))
  let restId ← .insert rest.definition.toDraft
  if split then
    let firstId ← .insert first.definition.toDraft
    let tailId ← .insert (.list restId (← .given (lowered min)) (← .given (lowered max)))
    .insert (.struct [(.text "first", firstId), (.text "rest", tailId)])
  else .insert (.list restId min max)

/-- Inserts the definition that a mapping declares: the first known form counts. -/
def compileForm (decl : Value) (name : String) : Compiling SemId := do
  let min := (decl.entry? "min").getD (.int 0)
  let max := (decl.entry? "max").getD (.int 0xffff)
  if let some width := decl.entry? "primitive" then .insert (.primitive width)
  else if (decl.entry? "unicode").isSome then .insert .unicode
  else if let some members := decl.entry? "enum" then
    let sorted ← .given do Value.sortOn Prod.snd (← mapping members)
    .insert (.enumeration sorted)
  else if let some variants := decl.entry? "union" then compileUnion ref variants name
  else if let some inner := decl.entry? "option" then
    let none ← ref (.text "Unit") name
    let some ← ref inner name
    .insert (.union [(.int 0, .text "none", none), (.int 1, .text "some", some)])
  else if let some items := decl.entry? "tuple" then
    .insert (.tuple (← (← .given items.iterate).mapM fun item => ref item name))
  else if let some fields := decl.entry? "struct" then compileStruct ref fields name
  else if let some item := decl.entry? "array" then
    let sid ← ref item name
    .insert (.array sid (← .given (required decl "len")))
  else if let some item := decl.entry? "list" then .insert (.list (← ref item name) min max)
  else if let some first := decl.entry? "ascii" then compileText decl first name
  else if let some item := decl.entry? "set" then .insert (.set (← ref item name) min max)
  else if let some items := decl.entry? "map" then
    let (key, value) ← .given items.unpair
    let keyId ← ref key name
    .insert (.map keyId (← ref value name) min max)
  else
    let keys ← .given do Value.sortOn id ((← mapping decl).map Prod.fst)
    .given (.error (.strict (.of name (.unknownForm (Value.list keys).literal))))

/-- Compiles a declaration: a reference or a mapping. -/
def compileDeclaration (decl : Value) (name : String) : Compiling SemId :=
  match decl with
  | .text _ | .broken _ => ref decl name
  | .map _ => compileForm ref decl name
  | _ => .given (.error (.strict (.of name (.declarationType decl.typeName))))

end Forms

/-- One step of compiling a reference that stands at a place: a builtin, a name of a library that is
used, or a name that is declared here. `chain` holds the declarations that are being compiled, and
`recur` compiles the references of a declaration with the names that are on the chain then. -/
def compileStep (lib : TypeLibrary) (used : List (String × SymbolicSystem))
    (recur : List String → Value → String → Compiling SemId) (chain : List String) (v : Value)
    (place : String) : Compiling SemId := do
  let name ← .given (referenceName place v)
  if let some builtin := Codec.builtin? name then return ← .grow builtin.derive
  if let some (library, localName) := Text.cutFirst? '.' name then
    match used.lookup library with
    | none => .given (.error (.strict (.of place (.unknownLibrary library))))
    | some sys => return ← .given (sys.resolve localName)
  if let some sid := (← get).names.lookup name then return sid
  match Value.lookup? (.text name) lib.declarations with
  | none => .given (.error (.strict (.of place (.unknownType name))))
  | some decl =>
    if chain.contains name then
      .given (.error (.strict (.of place (.cyclicReference name))))
    let sid ← .placed name (compileDeclaration (recur (name :: chain)) decl name)
    .name name sid
    return sid

/-- Compiles a reference that stands at a place. No declaration is on the chain twice, so their number
bounds its length, and `fuel` with it. -/
def compileReference (lib : TypeLibrary) (used : List (String × SymbolicSystem)) :
    Nat → List String → Value → String → Compiling SemId
  | 0, _, v, place => .given (.error (.strict (.of place (.cyclicReference v.display))))
  | fuel + 1, chain, v, place => compileStep lib used (compileReference lib used fuel) chain v place

/-- Adds the types of the used libraries, which is no event. -/
def mergeUsed : List (String × SymbolicSystem) → Compiling Unit
  | [] => return
  | (_, sys) :: rest => do
    let _ ← Compiling.grow (TypeSystem.Growth.merge sys.types)
    mergeUsed rest

/-- Compiles every declaration in order. -/
def compileAllDeclarations (lib : TypeLibrary) (used : List (String × SymbolicSystem)) :
    Compiling Unit :=
  lib.declarations.forM fun (name, _) => do
    let _ ← compileReference lib used (lib.declarations.length + 1) [] name name.display

/-- Compiles a library, given the libraries that it uses. -/
def compile (lib : TypeLibrary) (used : List (String × SymbolicSystem)) :
    Logged SymbolicSystem := do
  if let some missing := lib.uses.find? fun name => (used.lookup name).isNone then
    liftM (fail (.missingDependency lib.name missing) : Except Failure Unit)
  let (merged, bench) := mergeUsed used ⟨.empty, []⟩
  liftM merged
  let (r, done) := compileAllDeclarations lib used bench
  Logged.log (bench.types.insertions done.types)
  liftM r
  Logged.log [.of .symbolic "typelib" .info "type library compiled"
    [("library", .text lib.name), ("names", .ofNat done.names.length),
      ("types", .ofNat done.types.size)]]
  return ⟨lib.name, done.types, done.names⟩

/-! ## Several libraries -/

/-- The library with a name; of libraries with one name the last counts. -/
def find? (libs : List TypeLibrary) (name : String) : Option TypeLibrary :=
  libs.reverse.find? fun lib => lib.name == name

/-- One step of compiling the library with a name after those it uses, unless it is compiled. `chain`
holds the libraries that wait for it, outermost first, and `recur` compiles a library that it uses. -/
def namedStep (libs : List TypeLibrary)
    (recur : List String → List (String × SymbolicSystem) → String →
      Logged (List (String × SymbolicSystem)))
    (chain : List String) (done : List (String × SymbolicSystem)) (name : String) :
    Logged (List (String × SymbolicSystem)) := do
  if (done.lookup name).isSome then return done
  if chain.contains name then
    liftM (fail (.cyclicLibraries (chain ++ [name])) : Except Failure Unit)
  match find? libs name with
  | none => liftM (fail (.unknownLibrary name) : Except Failure _)
  | some lib =>
    let done ← lib.uses.foldlM (fun done dep => recur (chain ++ [name]) done dep) done
    let used := lib.uses.filterMap fun dep => (done.lookup dep).map fun sys => (dep, sys)
    return done ++ [(name, ← lib.compile used)]

/-- Compiles the library with a name after those it uses. No library is on the chain twice, so their
number bounds its length, and `fuel` with it. -/
def compileNamed (libs : List TypeLibrary) :
    Nat → List String → List (String × SymbolicSystem) → String →
      Logged (List (String × SymbolicSystem))
  | 0, chain, _, name =>
    liftM (fail (.cyclicLibraries (chain ++ [name])) : Except Failure _)
  | fuel + 1, chain, done, name => namedStep libs (compileNamed libs fuel) chain done name

/-- Compiles libraries; each sees those that it uses. The compiled ones come in the order of their
compilation. -/
def compileAll (libs : List TypeLibrary) : Logged (List (String × SymbolicSystem)) :=
  libs.foldlM (fun done lib => compileNamed libs (libs.length + 2) [] done lib.name) []

end TypeLibrary

end StrictContract
