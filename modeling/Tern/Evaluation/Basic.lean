import Tern.Session

/-!
# Evaluation

An evaluation takes a session to the next and gives a result, or halts with a fault. Whatever it
did to the session up to a fault stays done.

Evaluations are total functions, so one that may go on forever is given fuel, and halts when the
fuel does not last. Running out of fuel is no fault of the program, and nothing in the language
can tell.
-/

namespace Tern

/-- How an evaluation ends without a result. -/
inductive Halt where
  | fault (fault : Fault)
  | outOfFuel
  deriving DecidableEq, Repr

/-- Changes the fault, if it is one. -/
def Halt.mapFault (change : Fault → Fault) : Halt → Halt
  | fault f => fault (change f)
  | outOfFuel => outOfFuel

/-- A computation on a session. -/
abbrev Eval := EStateM Halt Session

namespace Eval

/-- Fails for this cause. -/
def raise (cause : Cause) : Eval α := throw (.fault { cause })

/-- Gives the result, or fails for the cause. -/
def orRaise : Except Cause α → Eval α
  | .ok result => pure result
  | .error cause => raise cause

/-- Gives the result, or fails with the fault. -/
def orFault : Except Fault α → Eval α
  | .ok result => pure result
  | .error fault => throw (.fault fault)

/-- Adds a place to a fault that has none yet. -/
def locate (span : Span) (x : Eval α) : Eval α :=
  EStateM.adaptExcept (Halt.mapFault (·.located span)) x

/-- Changes the session at the end of `x`, however `x` ends. -/
def afterwards (x : Eval α) (change : Session → Session) : Eval α := fun session =>
  match x session with
  | .ok result session => .ok result (change session)
  | .error halt session => .error halt (change session)

/-- Runs `x` in a new scope, which is gone afterwards. -/
def inScope (x : Eval α) : Eval α := do
  modify fun session => { session with env := session.env.push }
  afterwards x fun session => { session with env := session.env.pop }

/-- Runs `x` as the body of the function `name`: one more call is active meanwhile, and faults
leave the function. -/
def inCall (name : String) (x : Eval α) : Eval α := do
  modify fun session => { session with callDepth := session.callDepth + 1 }
  EStateM.adaptExcept (Halt.mapFault (·.leaving name)) <|
    afterwards x fun session => { session with callDepth := session.callDepth - 1 }

/-- The complaint that a declaration or assignment of a value of type `got` is refused. -/
def assignCause (name got : String) : Refusal → Cause
  | .constant => .constantViolation name
  | .undefined => .undefinedVariable name
  | .typeMismatch expected => .typeMismatch expected.name got

/-- Takes over the environment, unless the change to it was refused. -/
def updateEnv (name got : String) : Except Refusal Environment → Eval Unit
  | .ok env => modify fun session => { session with env }
  | .error refusal => raise (assignCause name got refusal)

/-- Declares a variable in the innermost scope. -/
def define (name : String) (binding : Variable) : Eval Unit := do
  updateEnv name binding.value.typeName ((← get).env.define name binding)

/-- Assigns to the innermost variable of that name. -/
def assign (name : String) (value : Value) : Eval Unit := do
  updateEnv name value.typeName ((← get).env.assign name value)

/-- Runs `body` on the indices from `index` on, until it gives a result but at most `count`
times, and then `atEnd`. -/
def iterate (body : Nat → Eval (Option α)) (atEnd : Eval α) : (index count : Nat) → Eval α
  | _, 0 => atEnd
  | index, count + 1 => do
    match ← body index with
    | some result => return result
    | none => iterate body atEnd (index + 1) count

@[simp] theorem iterate_zero (body : Nat → Eval (Option α)) (atEnd : Eval α) (index : Nat) :
    iterate body atEnd index 0 = atEnd := rfl

/-- A result ends the loop, otherwise it goes on with the next index. -/
theorem iterate_succ (body : Nat → Eval (Option α)) (atEnd : Eval α) (index count : Nat) :
    iterate body atEnd index (count + 1) = (do
      match ← body index with
      | some result => return result
      | none => iterate body atEnd (index + 1) count) := rfl

end Eval

/-- The arguments as `print` writes them: with single spaces between them. -/
def joinArguments (arguments : List Value) : String :=
  " ".intercalate (arguments.map (·.display))

/-- The second argument of a check is its message, if there is one. -/
def checkMessage (arguments : List Value) (default : String) : String :=
  match arguments with
  | _ :: message :: _ => message.display
  | _ => default

/-- Runs a routine on computed arguments. A slot that the host has left empty gives `void`. -/
def Native.run (arguments : List Value) : Native → Eval Value
  | print => do
    modify (·.print (joinArguments arguments))
    return .void
  | println => do
    modify (·.print (joinArguments arguments ++ "\n"))
    return .void
  | checkNotNull =>
    match arguments with
    | [] => Eval.raise (.arityMismatch "checkNotNull" 1 0)
    | .void :: _ => Eval.raise (.assertionFailed (checkMessage arguments "value is void"))
    | _ => return .void
  | checkArgument =>
    match arguments with
    | [] => Eval.raise (.arityMismatch "checkArgument" 1 0)
    | .boolean true :: _ => return .void
    | .boolean false :: _ =>
      Eval.raise (.assertionFailed (checkMessage arguments "argument check failed"))
    | other :: _ => Eval.raise (.typeMismatch "boolean" other.typeName)
  | host slot => do
    match (← get).routines[slot]? with
    | some routine => Eval.orFault (routine arguments)
    | none => return .void

end Tern
