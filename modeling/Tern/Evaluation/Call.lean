import Tern.Evaluation.Phrase

/-!
# Blocks and calls

A block is executed in a scope of its own. So is a call, whose scope starts with the parameters as
final variables. The scope of a call stands inside that of its caller: a function sees the
variables of whoever calls it.
-/

namespace Tern

/-- Whether each argument has the type that its parameter asks for; the leftmost one that does not
is the cause. -/
def checkTypes : List Parameter → List Value → Except Cause Unit
  | parameter :: parameters, argument :: arguments =>
    match parameter.type with
    | some type =>
      if type.accepts argument then checkTypes parameters arguments
      else
        .error (.typeMismatch (type.name ++ " for parameter `" ++ parameter.name ++ "`")
          argument.typeName)
    | none => checkTypes parameters arguments
  | _, _ => .ok ()

/-- Whether the function takes these arguments: as many as it has parameters, and of their
types. -/
def Callable.check (function : Callable) (arguments : List Value) : Except Cause Unit :=
  if arguments.length = function.parameters.length then
    checkTypes function.parameters arguments
  else
    .error (.arityMismatch function.name function.parameters.length arguments.length)

namespace Eval

/-- Binds each parameter to its argument. -/
def bindParameters : List Parameter → List Value → Eval Unit
  | parameter :: parameters, argument :: arguments => do
    define parameter.name { isFinal := true, type := parameter.type, value := argument }
    bindParameters parameters arguments
  | _, _ => return

/-- Executes the tokens of a block in a new scope. -/
def block (self : Evaluator) (tokens : List Token) : Eval (Option Value) :=
  inScope (Reading.onTokens tokens (self (.statements true)))

/-- Calls a function on computed arguments. The result is that of the first `return`, or else
`void`. -/
def call (self : Evaluator) (function : Callable) (arguments : List Value) : Eval Value :=
  match function.body with
  | .native routine true => routine.run arguments
  | .native routine false => do
    orRaise (function.check arguments)
    routine.run arguments
  | .tokens tokens => do
    orRaise (function.check arguments)
    -- Arguments that do not fit are a fault at any depth, so the limit is asked for after them.
    let session ← get
    if session.settings.maxCallDepth ≤ session.callDepth then
      raise (.recursionLimit session.settings.maxCallDepth)
    else
      let returned ← inCall function.name <| inScope do
        bindParameters function.parameters arguments
        Reading.onTokens tokens (self (.statements true))
      return returned.getD .void

end Eval

end Tern
