import Tern.Evaluation.Statement
import Tern.Token.Lexer

/-!
# Running programs

`Phrase.run` ties the rules of evaluation together. Its fuel bounds how deeply phrases may be
nested and how often a `while` loop may go round; more fuel never changes a result that less fuel
has reached.
-/

namespace Tern

namespace Phrase

/-- The rule for each phrase. -/
def rule (self : Evaluator) (fuel : Nat) : Phrase α → Reading α
  | expression => Reading.logical self
  | additive => Reading.additive self
  | multiplicative => Reading.multiplicative self
  | unary => Reading.unary self
  | arguments => Reading.arguments self
  | arms => Reading.arms self
  | statements paced => Reading.statements self fuel paced

/-- Evaluates a phrase with this much fuel. -/
def run : (fuel : Nat) → Evaluator
  | 0 => fun _ _ => throw .outOfFuel
  | fuel + 1 => fun _ phrase => phrase.rule (run fuel) fuel

/-- A phrase is evaluated by its rule, with one unit less for the phrases inside. -/
theorem run_succ (fuel : Nat) (phrase : Phrase α) :
    run (fuel + 1) phrase = phrase.rule (run fuel) fuel := rfl

end Phrase

namespace Session

/-- The result of an evaluation and the session after it. -/
def evaluate (session : Session) (x : Eval α) : Except Halt α × Session :=
  match x session with
  | .ok result session => (.ok result, session)
  | .error halt session => (.error halt, session)

/-- Runs a tokenized program in the root scope: the result is that of a `return` in one of its
blocks, or `void`. -/
def runTokens (session : Session) (fuel : Nat) (tokens : List Token) :
    Except Halt Value × Session :=
  -- Globals outlive a run; scopes and calls that a fault left open do not.
  { session with env := session.env.reset, callDepth := 0 }.evaluate do
    return (← Reading.onTokens tokens (Phrase.run fuel (.statements false))).getD .void

/-- Runs a program. -/
def run (session : Session) (fuel : Nat) (source : String) : Except Halt Value × Session :=
  session.runTokens fuel (tokenize source)

/-- Calls a function from outside a program, in whatever scope is current. -/
def call (session : Session) (fuel : Nat) (function : Callable) (arguments : List Value) :
    Except Halt Value × Session :=
  session.evaluate (Eval.call (Phrase.run fuel) function arguments)

/-- Fuel that no program of practical size uses up: 2⁶². -/
def ampleFuel : Nat := 0x4000000000000000

end Session

end Tern
