import Tern.Environment
import Tern.Fault

/-!
# Sessions

A session is one interpreter with everything that outlives a run: the globals, the routines of the
host, and what has been printed so far. Runs and calls take a session to the next.

What a program does to the outside is recorded in the transcript, so a run is a function of the
session it starts from. Whoever embeds the session replays the transcript.
-/

namespace Tern

/-- A routine of the host, called with computed arguments. -/
abbrev Routine := List Value → Except Fault Value

/-- Something that a program did to the outside. -/
inductive Event where
  /-- This text was printed, line ends included. -/
  | printed (text : String)
  /-- The program paused for this many milliseconds. -/
  | paused (milliseconds : Nat)
  deriving DecidableEq, Repr

/-- The texts printed in a sequence of events, joined. -/
def Event.output (events : List Event) : String :=
  String.join (events.filterMap fun
    | printed text => some text
    | paused _ => none)

/-- The pauses in a sequence of events. -/
def Event.pauses (events : List Event) : List Nat :=
  events.filterMap fun
    | printed _ => none
    | paused milliseconds => some milliseconds

/-- The limit on nested calls unless another one is chosen. -/
def defaultMaxCallDepth : Nat := 512

/-- How a session is configured. -/
structure Settings where
  /-- How many calls of functions written in the language may be active at once. -/
  maxCallDepth : Nat := defaultMaxCallDepth
  /-- Whether printed text is thrown away. -/
  silent : Bool := false
  /-- Whether pauses are left out. -/
  unpaced : Bool := false
  deriving DecidableEq, Repr

/-- The state of an interpreter. -/
structure Session where
  settings : Settings := {}
  env : Environment := {}
  /-- How many calls of functions written in the language are active. -/
  callDepth : Nat := 0
  /-- The routines of the host; a native function names one by its index. -/
  routines : Array Routine := #[]
  /-- The `id` of the next function that is made. -/
  nextId : Nat := 0
  /-- What has happened, latest first. -/
  transcript : List Event := []

namespace Session

/-- The global whose value, in milliseconds, is the pause before each statement. -/
def delayName : String := "delay"

/-- Binds a global, whatever was there. -/
def setGlobal (session : Session) (name : String) (binding : Variable) : Session :=
  { session with env := session.env.setGlobal name binding }

/-- The global of that name. -/
def global? (session : Session) (name : String) : Option Variable :=
  session.env.global? name

/-- Makes a native function. Without parameters given it takes any arguments. -/
def makeNative (session : Session) (name : String) (parameters? : Option (List Parameter))
    (routine : Native) : Callable × Session :=
  ({ id := session.nextId
     name
     parameters := parameters?.getD []
     returns := none
     body := .native routine parameters?.isNone },
    { session with nextId := session.nextId + 1 })

/-- Makes a function of a routine of the host. -/
def makeHosted (session : Session) (name : String) (parameters? : Option (List Parameter))
    (routine : Routine) : Callable × Session :=
  let slot := session.routines.size
  let session := { session with routines := session.routines.push routine }
  session.makeNative name parameters? (.host slot)

/-- Binds a function as a final global. -/
def bindFunction (session : Session) (function : Callable) : Session :=
  session.setGlobal function.name
    { isFinal := true, type := some .function, value := .function function }

/-- Registers a routine of the host as a global function. Without parameters given it takes any
arguments; otherwise they are checked before the routine runs. -/
def addRoutine (session : Session) (name : String) (parameters? : Option (List Parameter))
    (routine : Routine) : Session :=
  let (function, session) := session.makeHosted name parameters? routine
  session.bindFunction function

@[simp] theorem routines_addRoutine (session : Session) (name : String)
    (parameters? : Option (List Parameter)) (routine : Routine) :
    (session.addRoutine name parameters? routine).routines = session.routines.push routine := rfl

/-- The native functions that a session starts with. -/
def standardNatives : List (String × Native) :=
  [("print", .print), ("println", .println),
    ("checkNotNull", .checkNotNull), ("checkArgument", .checkArgument)]

/-- Registers a native function that takes any arguments. -/
def addNative (session : Session) (name : String) (routine : Native) : Session :=
  let (function, session) := session.makeNative name none routine
  session.bindFunction function

/-- A session before its first run: no pause is set, and the standard natives are there if
wanted. -/
def create (settings : Settings) (withNatives : Bool) : Session :=
  let session := { settings : Session }.setGlobal delayName
    { isFinal := false, type := some .number, value := .number 0 }
  if withNatives then
    standardNatives.foldl (fun session (name, routine) => session.addNative name routine) session
  else session

@[simp] theorem routines_create (settings : Settings) (withNatives : Bool) :
    (create settings withNatives).routines = #[] := by
  cases withNatives <;> rfl

/-- Prints a text. -/
def print (session : Session) (text : String) : Session :=
  if session.settings.silent then session
  else { session with transcript := .printed text :: session.transcript }

/-- Pauses as long as the global `delay` says, if it is a positive number. -/
def pace (session : Session) : Session :=
  match (session.global? delayName).bind (·.value.number?) with
  | some milliseconds =>
    if 0 < milliseconds.toInt && !session.settings.unpaced then
      { session with transcript := .paused milliseconds.toInt.toNat :: session.transcript }
    else session
  | none => session

/-- Everything that happened since the last time, in order, and the session with an empty
transcript. -/
def takeTranscript (session : Session) : List Event × Session :=
  (session.transcript.reverse, { session with transcript := [] })

end Session

end Tern
