import StrictContract.Duration
import StrictContract.TypeSystem
import StrictContract.Value.Rendering
import StrictContract.Value.Writable

/-! # Journals — what happened, as structured events

An **event** has a level, a logger inside one of the layers, a message and named values as its
context. The events of an operation are part of its result, so that whoever runs it decides which of
them to keep. -/

namespace StrictContract

/-! ## Levels and layers -/

/-- How grave an event is. -/
inductive LogLevel where
  | debug
  | info
  | warning
  | error
  | critical
deriving DecidableEq

namespace LogLevel

/-- Every level, ascending. -/
def all : List LogLevel := [debug, info, warning, error, critical]

/-- The name of a level. -/
def name : LogLevel → String
  | debug => "debug"
  | info => "info"
  | warning => "warning"
  | error => "error"
  | critical => "critical"

/-- The level with a given name. -/
def ofName? (s : String) : Option LogLevel := all.find? fun l => l.name == s

/-- The place of a level in the ascending order. -/
def rank (l : LogLevel) : Nat := all.idxOf l

/-- A name in capitals. -/
def capitals (s : String) : String :=
  (s.map fun c => if c == 'ı' then 'I' else if c == 'ſ' then 'S' else c).toUpper

/-- The names in capitals under which levels are known. The name `NOTSET` stands for no level. -/
def knownAs : List (String × Option LogLevel) :=
  [("DEBUG", some debug), ("INFO", some info), ("WARNING", some warning), ("WARN", some warning),
   ("ERROR", some error), ("CRITICAL", some critical), ("FATAL", some critical), ("NOTSET", none)]

/-- The form of a line, the name of which is easily taken for that of a level. -/
def lineForm : String := "%(levelname)s:%(name)s:%(message)s"

/-- The level, if any, that a name in any case stands for. -/
def known (s : String) : Except Failure (Option LogLevel) :=
  match knownAs.lookup (capitals s) with
  | some level => .ok level
  | none =>
    if capitals s = "BASIC_FORMAT" then reject (.noLevel lineForm)
    else if capitals s = "_STYLES" then misuse .wrongType
    else misuse .noSuchPart

/-- A level in capitals, for a name in any case. -/
def shown (s : String) : Except Failure String :=
  if capitals s = "BASIC_FORMAT" then .ok ("Level " ++ lineForm)
  else (known s).map fun level => capitals ((level.map name).getD "notset")

end LogLevel

/-- The part of the library that an event comes from. -/
inductive Layer where
  | typesys
  | symbolic
  | schema
  | graph
  | state
  | stash
deriving DecidableEq

namespace Layer

/-- Every layer. -/
def all : List Layer := [typesys, symbolic, schema, graph, state, stash]

/-- The name of a layer. -/
def name : Layer → String
  | typesys => "typesys"
  | symbolic => "symbolic"
  | schema => "schema"
  | graph => "graph"
  | state => "state"
  | stash => "stash"

/-- The layer with a given name. -/
def ofName? (s : String) : Option Layer := all.find? fun l => l.name == s

/-- The layer that has to have a given name. -/
def named (s : String) : Except Failure Layer :=
  match ofName? s with
  | some layer => .ok layer
  | none => reject (.noLayer s)

end Layer

/-! ## Events -/

/-- An **event**. -/
structure Event where
  level : LogLevel
  logger : String
  layer : Layer
  message : String
  /-- The operation that the event completes, if any. -/
  operation : Value
  /-- The code of the error that the event reports, if any. -/
  errorCode : Value
  context : List (String × Value)

namespace Event

/-- The full name of a logger. -/
def loggerName (layer : Layer) (logger : String) : String :=
  "rgbcore." ++ layer.name ++ "." ++ logger

/-- An event of a logger. -/
def of (layer : Layer) (logger : String) (level : LogLevel) (message : String)
    (context : List (String × Value)) : Event where
  level
  logger := loggerName layer logger
  layer
  message
  operation := .null
  errorCode := .null
  context

/-- The event that completes an operation, with success or without. -/
def completing (layer : Layer) (logger name : String) (success : Bool)
    (context : List (String × Value)) : Event where
  level := if success then .info else .warning
  logger := loggerName layer logger
  layer
  message := "Operation " ++ name ++ (if success then " completed" else " failed")
  operation := .text name
  errorCode := .null
  context

/-- Whether an event is as grave as a level, or graver. -/
def passes (threshold : LogLevel) (e : Event) : Bool := decide (threshold.rank ≤ e.level.rank)

/-- The events of definitions that were inserted into a type system. -/
def inserted (entries : List (SemId × TypeDef)) : List Event :=
  entries.map fun (sid, d) =>
    of .typesys "typesys" .debug "type inserted"
      [("sem_id", .text sid.text), ("kind", .text d.kindName)]

/-- The context with further values; a name that is there keeps its place. -/
def extend (context extra : List (String × Value)) : List (String × Value) :=
  extra.foldl (fun acc (name, v) =>
    if acc.any fun (n, _) => n == name then
      acc.map fun (n, w) => if n == name then (n, v) else (n, w)
    else acc ++ [(name, v)]) context

/-- Whether a part of a stored event says nothing. -/
def isBlankPart : Value → Bool
  | .null => true
  | .text s => s.isEmpty
  | .map entries => entries.isEmpty
  | _ => false

/-- Whether a document can hold an event. -/
def isWritable (e : Event) : Bool :=
  e.operation.isWritable && e.errorCode.isWritable && e.context.all fun (_, v) => v.isWritable

/-- The event on one line: level, logger, message, context, and the duration in milliseconds. -/
def line (level logger message : String) (context : List (Value × Value))
    (milliseconds : Option Int) : Except Failure String := do
  let level ← LogLevel.shown level
  let shown := if context.isEmpty then "" else
    " " ++ " ".intercalate (context.map fun (name, v) => name.display ++ "=" ++ v.display)
  let duration ←
    match milliseconds.map Duration.text? with
    | none => .ok ""
    | some none => misuse .outOfRange
    | some (some text) => .ok (" (" ++ text ++ " ms)")
  return level ++ " " ++ logger ++ ": " ++ message ++ shown ++ duration

end Event

/-! ## Computations with events -/

/-- A computation that writes **events**; what was written stays even if it fails. -/
abbrev Logged : Type → Type := ExceptT Failure (StateM (List Event))

/-- Writes events; an event that no document can hold is lost. -/
def Logged.log (events : List Event) : Logged Unit := fun written =>
  (.ok (), written ++ events.filter Event.isWritable)

/-- The result of a computation, whatever it has written. -/
def Logged.result {α : Type} (m : Logged α) : Except Failure α := (m.run []).1

/-- The events of a type system that was grown by inserting definitions. -/
def TypeSystem.insertions (before after : TypeSystem) : List Event :=
  Event.inserted (after.entries.drop before.size)

/-- The result of a check: the **violations** that were found, in order. -/
structure Report where
  violations : List StrictError

namespace Report

/-- Nothing found. -/
def empty : Report := ⟨[]⟩

/-- One report after another. -/
def append (a b : Report) : Report := ⟨a.violations ++ b.violations⟩

instance : Append Report := ⟨append⟩

/-- Several reports in order. -/
def join (reports : List Report) : Report := ⟨reports.flatMap Report.violations⟩

/-- Whether nothing was found. -/
def isValid (r : Report) : Bool := r.violations.isEmpty

/-- The codes of the violations. -/
def codes (r : Report) : List String := r.violations.map StrictError.code

/-- Refuses violations. -/
def ensureValid (r : Report) : Except Failure Unit :=
  if r.isValid then .ok () else .error (.rejected r.violations)

end Report

end StrictContract
