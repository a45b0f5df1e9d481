import StrictContract.Document.Scalar
import StrictContract.Journal
import StrictContract.Table
import StrictContract.TypeLibrary
import StrictContract.Value.Feature
import StrictContract.Value.Rendering

/-! # Settings — values that steer checking and logging

A **setting** has a default, may be given another value, and is overridden by a variable of the
environment. Settings are grouped in two **sections** and named by a path of section and name. They
are given values one by one or by loading a document. -/

namespace StrictContract

/-! ## The settings -/

/-- A **section** of the settings. -/
inductive Section where
  | checker
  | observability
deriving DecidableEq

/-- A **setting**. -/
inductive Setting where
  | workers
  | parallelThreshold
  | logLevel
  | logFormat
deriving DecidableEq

namespace Section

/-- Every section. -/
def all : List Section := [checker, observability]

/-- The name of a section. -/
def name : Section → String
  | checker => "checker"
  | observability => "observability"

/-- The settings of a section. -/
def settings : Section → List Setting
  | checker => [.workers, .parallelThreshold]
  | observability => [.logLevel, .logFormat]

end Section

namespace Setting

/-- Every setting. -/
def all : List Setting := Section.all.flatMap Section.settings

/-- The section of a setting. -/
def group : Setting → Section
  | workers | parallelThreshold => .checker
  | logLevel | logFormat => .observability

/-- The name of a setting inside its section. -/
def name : Setting → String
  | workers => "workers"
  | parallelThreshold => "parallel_threshold"
  | logLevel => "log_level"
  | logFormat => "log_format"

/-- The path of a setting. -/
def path (s : Setting) : String := s.group.name ++ "." ++ s.name

/-- The setting with a path. -/
def ofPath? (path : String) : Option Setting := all.find? fun s => s.path == path

/-- The value of a setting that was given none. -/
def default : Setting → Value
  | workers => .int 1
  | parallelThreshold => .int 8
  | logLevel => .text "info"
  | logFormat => .text "json"

/-- The variable of the environment that overrides a setting. -/
def variableName : Setting → String
  | workers => "RGBCORE_CHECK_WORKERS"
  | parallelThreshold => "RGBCORE_CHECK_PARALLEL_THRESHOLD"
  | logLevel => "RGBCORE_LOG_LEVEL"
  | logFormat => "RGBCORE_LOG_FORMAT"

/-- What a setting is for. -/
def description : Setting → String
  | workers => "Worker threads used to validate bundles (1 = sequential)"
  | parallelThreshold => "Minimum bundle count before the worker pool is used"
  | logLevel => "Log level (debug, info, warning, error)"
  | logFormat => "Log format (json, text)"

/-- Whether a number is between two bounds; other values cannot be compared with it. -/
def between (min : Int) (max : Option Int) (v : Value) : Except Failure Bool :=
  match v.number? with
  | some n => .ok (decide (min ≤ n) && max.all fun m => decide (n ≤ m))
  | none => misuse .wrongType

/-- Whether a value is one of some texts. -/
def among (texts : List String) : Value → Bool
  | .text s => texts.contains s
  | _ => false

/-- Whether a setting can have a value. -/
def admits : Setting → Value → Except Failure Bool
  | workers, v => between 1 (some 64) v
  | parallelThreshold, v => between 1 none v
  | logLevel, v => .ok (among ["debug", "info", "warning", "error", "critical"] v)
  | logFormat, v => .ok (among ["json", "text"] v)

/-- The value that the text of a variable stands for. -/
def ofVariable (s : Setting) (text : String) : Except SettingFault Value :=
  match s.default with
  | .int _ =>
    match Text.integer? text with
    | .ok n => .ok (.int n)
    | .error fault => .error (.unreadableVariable s.variableName text fault)
  | _ => .ok (.text text)

end Setting

/-! ## Their values -/

/-- The **settings**: the variables of the environment, the values that settings were given, and the
files that were loaded. -/
structure Settings where
  environment : Table String String
  values : Table Setting Value
  files : List String

namespace Settings

/-- The settings without any value given. -/
def fresh : Settings := ⟨.empty, .empty, []⟩

/-- Sets a variable of the environment, or removes it. The environment holds no null characters, no
equals sign in a name, and no name without characters. -/
def withVariable (c : Settings) (name : String) (text : Option String) : Except Failure Settings :=
  match text with
  | some text =>
    if name.contains '\x00' || text.contains '\x00' then reject .nullInVariable
    else if name.contains '=' then reject .variableName
    else if name.isEmpty then misuse .unusableVariable
    else .ok { c with environment := c.environment.put name text }
  | none => .ok { c with environment := c.environment.erase name }

/-- Forgets all values and files; the environment stays. -/
def reset (c : Settings) : Settings := { fresh with environment := c.environment }

/-- Forgets the value of a setting. -/
def resetValue (c : Settings) (s : Setting) : Settings := { c with values := c.values.erase s }

/-- The value of a setting: that of its variable, else the one it was given, else its default. -/
def value (c : Settings) (s : Setting) : Except SettingFault Value :=
  match c.environment.get? s.variableName with
  | some text => s.ofVariable text
  | none => .ok ((c.values.get? s).getD s.default)

/-- The level below which events are dropped. -/
def logLevel (c : Settings) : LogLevel :=
  match c.value .logLevel with
  | .ok (.text s) => (LogLevel.ofName? s).getD .info
  | _ => .info

/-- Gives a setting a value, which it has to admit. -/
def give (c : Settings) (s : Setting) (v : Value) : Except Failure Settings := do
  if ← s.admits v then return { c with values := c.values.put s v }
  else .error (.setting (.invalidValue v.literal))

/-- Gives the setting with a path a value. -/
def set (c : Settings) (path : String) (v : Value) : Except Failure Settings :=
  match Setting.ofPath? path with
  | some s => c.give s v
  | none => .error (.setting (.invalidPath path))

/-- What is found under a path. -/
inductive Entry where
  | value (v : Value)
  | group (s : Section)

/-- The part of a setting or of a number with a name, found along the rest of a path. -/
def parts (c : Settings) (s : Setting) : List String → Option Value
  | [] => none
  | name :: rest =>
    let start :=
      if name = "default" then some s.default
      else if name = "env_var" then some (.text s.variableName)
      else if name = "description" then some (.text s.description)
      else if name = "_value" then some ((c.values.get? s).getD .null)
      else none
    rest.foldlM (fun v part => v.feature? part) =<< start

/-- What stands under a path: a section, the value of a setting, or a part of the setting itself. -/
def get (c : Settings) (path : String) : Except Failure Entry :=
  let invalid := .error (.setting (.invalidPath path))
  match path.splitOn "." with
  | [] => invalid
  | front :: rest =>
    match Section.all.find? fun g => g.name == front, rest with
    | none, _ => invalid
    | some g, [] => .ok (.group g)
    | some g, name :: more =>
      match g.settings.find? fun s => s.name == name, more with
      | none, _ => invalid
      | some s, [] => (c.value s).map Entry.value |>.mapError Failure.setting
      | some s, more =>
        match c.parts s more with
        | some v => .ok (.value v)
        | none => invalid

/-! ## Loading documents -/

/-- A computation that gives settings values; what was given stays even if it fails. -/
abbrev Loading : Type → Type := ExceptT Failure (StateM Settings)

/-- Names that are known everywhere although they name no settings. -/
def knownNames : List String :=
  ["__annotations__", "__class__", "__dataclass_fields__", "__dataclass_params__", "__delattr__",
   "__dict__", "__dir__", "__doc__", "__eq__", "__format__", "__ge__", "__getattribute__",
   "__getstate__", "__gt__", "__hash__", "__init__", "__init_subclass__", "__le__", "__lt__",
   "__match_args__", "__module__", "__ne__", "__new__", "__reduce__", "__reduce_ex__", "__repr__",
   "__setattr__", "__sizeof__", "__str__", "__subclasshook__", "__weakref__"]

/-- Names at the root of a document that are no sections, and yet known. -/
def rootNames : List String := ["to_dict", "to_yaml"] ++ knownNames

/-- Names that are known of the type of a section besides those of the section. -/
def typeNames : List String :=
  ["__base__", "__bases__", "__basicsize__", "__call__", "__dictoffset__", "__flags__",
   "__instancecheck__", "__itemsize__", "__mro__", "__name__", "__or__", "__prepare__",
   "__qualname__", "__ror__", "__subclasscheck__", "__subclasses__", "__text_signature__",
   "__weakrefoffset__", "mro"]

/-- The name that a key at a place has to be; nothing is named with a surrogate. -/
def keyName (place : String) (key : Value) : Except Failure String :=
  match key with
  | .text s => .ok s
  | .broken t => .error (.setting (.unknownKey (place ++ t.shown)))
  | _ => misuse .wrongType

/-- Refuses a name that is neither a setting nor a section; some names are known nevertheless. -/
def refuseName (known : List String) (place name : String) : Except Failure Unit :=
  let path := place ++ name
  .error (.setting (if known.contains name then .invalidSection path else .unknownKey path))

/-- Refuses an entry that gives no setting a value. The type of a section may be given a mapping,
but it has no settings that an entry of the mapping could be for. -/
def refuseEntry (known : List String) (place name : String) (v : Value) : Except Failure Unit :=
  match name, v with
  | "__class__", .map [] => .ok ()
  | "__class__", .map ((key, _) :: _) => do
    let path := place ++ "__class__."
    refuseName (typeNames ++ known) path (← keyName path key)
  | _, _ => refuseName known place name

/-- Gives a setting of a section the value of an entry. -/
def applyEntry (g : Section) (key v : Value) : Loading Unit := fun c =>
  let given : Except Failure Settings := do
    let name ← keyName (g.name ++ ".") key
    match g.settings.find? fun s => s.name == name with
    | some s => c.give s v
    | none => do
      refuseEntry knownNames (g.name ++ ".") name v
      return c
  match given with
  | .ok c' => (.ok (), c')
  | .error e => (.error e, c)

/-- Applies the entry of a section. -/
def applySection (key v : Value) : Loading Unit := do
  let name ← liftM (keyName "" key)
  match Section.all.find? fun g => g.name == name, v with
  | some g, .map entries => entries.forM fun (k, x) => applyEntry g k x
  | some _, _ => throw (.setting (.invalidSection name))
  | none, _ => liftM (refuseEntry rootNames "" name v)

/-- Whether a document says nothing. -/
def isVoid : Value → Bool
  | .null => true
  | .text s => s.isEmpty
  | v =>
    match v.number?, v.items? with
    | some n, _ => n == 0
    | none, some items => items.isEmpty
    | none, none => false

/-- Applies the document of a file. -/
def load (file : String) (content : FileContent) : Loading Unit := do
  match content with
  | .missing => throw (.setting (.missingFile file))
  | .unreadable => throw (.setting (.unreadableFile file))
  | .document v =>
    if isVoid v then return
    match v with
    | .map entries =>
      entries.forM fun (k, x) => applySection k x
      modify fun c => { c with files := c.files ++ [file] }
    | _ => throw (.setting (.rootNotMapping file))

/-! ## All settings at once -/

/-- What is wrong with the value of a setting, if anything. -/
def complaint? (c : Settings) (s : Setting) : Option String :=
  match c.value s with
  | .error e => some (s.path ++ ": " ++ e.message)
  | .ok v =>
    match s.admits v with
    | .ok true => none
    | _ => some (s.path ++ ": validation failed for value " ++ v.literal)

/-- What is wrong with the values of all settings. -/
def complaints (c : Settings) : List String := Setting.all.filterMap c.complaint?

/-- The values of all settings, by section. -/
def sections (c : Settings) : Except SettingFault (List (Section × List (Setting × Value))) :=
  Section.all.mapM fun g => do
    return (g, ← g.settings.mapM fun s => do return (s, ← c.value s))

/-- A value as it is written in a document from a column on. -/
def scalar (column : Nat) : Value → String
  | .text s => Scalar.write 4 column s
  | .bool b => if b then "true" else "false"
  | v => v.display

/-- The line of a setting. -/
def line (s : Setting) (v : Value) : String :=
  "  " ++ s.name ++ ": " ++ scalar (s.name.length + 4) v ++ "\n"

/-- The values of all settings as the text of a document, with names in ascending order. -/
def text (c : Settings) : Except SettingFault String := do
  let sections ← c.sections
  let lines := sections.flatMap fun (g, values) =>
    let sorted := values.mergeSort fun a b => decide (a.1.name ≤ b.1.name)
    (g.name ++ ":\n") :: sorted.map fun (s, v) => line s v
  return String.join lines

end Settings

end StrictContract
