import StrictContract.Journal

/-! # Loggers — writing events with named arguments

A **logger** belongs to a layer and may have a level of its own, below which it drops events. It is
called with **named arguments**. Some names are parts of the event, some are already taken by the
call; all others make up the context. -/

namespace StrictContract

/-! ## Named arguments -/

/-- The **arguments** of a call by name. -/
abbrev Arguments : Type := List (Value × Value)

/-- The names of the arguments that are parts of the event. -/
def Event.argumentNames : List String := ["operation", "error_code", "duration_ms", "exc_info"]

/-- The arguments by name, none of which may be taken. -/
def Arguments.free (taken : List String) (arguments : Arguments) :
    Except Failure (List (String × Value)) :=
  arguments.mapM fun (name, v) =>
    match name with
    | .text s => if taken.contains s then misuse .wrongType else .ok (s, v)
    | .broken t => .ok (t.shown, v)
    | _ => misuse .wrongType

/-- Whether the arguments that are no parts of an event let it be written: a duration has to be
writable as well, and a pair is no report of an error. -/
def Event.admits (arguments : List (String × Value)) : Bool :=
  ((arguments.lookup "duration_ms").getD .null).isWritable &&
    match arguments.lookup "exc_info" with
    | some (.tagged _ _) => false
    | _ => true

/-- The event with named arguments; one that cannot be written is lost. -/
def Event.withArguments (e : Event) (arguments : List (String × Value)) : List Event :=
  if Event.admits arguments then
    [{ e with
      operation := (arguments.lookup "operation").getD e.operation
      errorCode := (arguments.lookup "error_code").getD e.errorCode
      context := arguments.filter fun (name, _) => !Event.argumentNames.contains name }].filter
        Event.isWritable
  else []

/-! ## Stored events -/

/-- The names of the parts of a stored event; the first four have to be there. -/
def Event.partNames : List String :=
  ["timestamp", "level", "logger", "message", "layer", "operation", "duration_ms", "error_code",
   "context", "exception"]

/-- The parts of a stored event that say something. -/
def Event.stored (arguments : Arguments) : Except Failure (List (String × Value)) := do
  let parts ← arguments.free []
  if parts.all (fun (name, _) => Event.partNames.contains name)
      && (Event.partNames.take 4).all (fun name => (parts.lookup name).isSome) then
    return parts.filter fun (_, v) => !Event.isBlankPart v
  else misuse .wrongType

/-! ## Loggers -/

/-- A **logger**. -/
structure Logger where
  layer : Layer
  name : String
  /-- The level of its own, if it has one; without a level it drops what is below a warning. -/
  pinned : Option (Option LogLevel)

namespace Logger

/-- The logger of a layer, possibly with a level of its own. An empty name is no level. -/
def named (layer name : String) (level : Option String) : Except Failure Logger := do
  let layer ← Layer.named layer
  match level with
  | none | some "" => return ⟨layer, name, none⟩
  | some level => return ⟨layer, name, some (← LogLevel.known level)⟩

/-- The level below which events are dropped when another level is configured. -/
def threshold (l : Logger) (configured : LogLevel) : LogLevel :=
  match l.pinned with
  | none => configured
  | some level => level.getD .warning

/-- Names that a logger knows and that are no levels it can be called at. -/
def otherNames : List String :=
  ["operation", "logger", "name", "layer", "_log", "_logger", "_level", "_sync_level"]

/-- The event of a call at a level. -/
def record (l : Logger) (level message : String) (arguments : Arguments) :
    Except Failure (List Event) := do
  match [LogLevel.debug, .info, .warning, .error].find? fun x => x.name == level with
  | none => misuse (if otherNames.contains level then .wrongType else .noSuchPart)
  | some level =>
    let free ← arguments.free ["self", "message", "level"]
    return (Event.of l.layer l.name level message []).withArguments free

/-- The event of the completion of an operation. -/
def complete (l : Logger) (operation : String) (success : Bool) (arguments : Arguments) :
    Except Failure (List Event) := do
  let free ← arguments.free
    ["self", "name", "duration_ms", "success", "level", "message", "operation"]
  return (Event.completing l.layer l.name operation success []).withArguments free

/-- Refuses arguments that the timing of an operation does not take. -/
def checkTimed (arguments : Arguments) : Except Failure Unit := do
  let _ ← arguments.free ["logger", "operation_name"]

end Logger

end StrictContract
