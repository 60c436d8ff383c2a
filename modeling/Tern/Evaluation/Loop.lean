import Tern.Evaluation.Call
import Tern.Evaluation.Outcome

/-!
# Loops

The three loops execute a block in a new scope each round, until their count is reached, their
condition no longer holds, or the block returns. Counts and bounds are evaluated once, conditions
before every round.
-/

namespace Tern

namespace Eval

/-- One round of a `while` loop: a result if the condition does not hold or the block returned. -/
def whileRound (self : Evaluator) (condition body : List Token) : Eval (Option Outcome) := do
  let holds ← Reading.onTokens condition do
    let value ← self .expression
    match ← Reading.peek with
    -- The condition was cut out up to the brace; all of it has to be the expression.
    | some extra => Reading.raiseAt extra.span (.malformed (.trailing extra.kind.text))
    | none => return value.isTruthy
  if holds then
    return (← block self body).map .returned
  else
    return some .done

/-- One round of a range loop: the block in a scope that starts with the loop variable, if there
is one. -/
def rangeRound (self : Evaluator) (name? : Option String) (body : List Token) (i : Number) :
    Eval (Option Value) :=
  inScope do
    match name? with
    | some name =>
      define name { isFinal := true, type := some .number, value := .number i }
    | none => pure ()
    Reading.onTokens body (self (.statements true))

end Eval

namespace Reading

/-- An expression whose value is a number. -/
def bound (self : Evaluator) : Reading Number := do
  let span ← here
  let value ← self .expression
  match value.number? with
  | some n => return n
  | none => raiseAt span (.typeMismatch Ty.number.name value.typeName)

/-- `repeat n { ... }`: executes the block `n` times, or not at all if `n` is negative. -/
def counted (self : Evaluator) : Reading Outcome :=
  after .repeatKw do
    let count ← bound self
    expect (.symbol .leftBrace) "`\x7b` after repeat count"
    let body ← scan Scan.block
    Eval.iterate (fun _ => return (← Eval.block self body).map .returned) (return .done)
      0 count.toInt.toNat

/-- `while e { ... }`: executes the block as long as `e` holds; `fuel` bounds the rounds. -/
def whileLoop (self : Evaluator) (fuel : Nat) : Reading Outcome :=
  after .whileKw do
    let condition ← scan (Scan.untilBrace "`\x7b` after while condition")
    let body ← scan Scan.block
    Eval.iterate (fun _ => Eval.whileRound self condition body) (throw .outOfFuel) 0 fuel

/-- `from a to b with x { ... }`: executes the block for every number from `a` on below `b`. -/
def range (self : Evaluator) : Reading Outcome :=
  after .fromKw do
    let first ← bound self
    expect (.keyword .toKw) "`to` in range loop"
    let limit ← bound self
    let name? ← do
      if ← accept (.keyword .withKw) then
        some <$> scan (Scan.identifier "loop variable name after `with`")
      else pure none
    expect (.symbol .leftBrace) "`\x7b` after range"
    let body ← scan Scan.block
    let round := fun (k : Nat) => do
      -- Below the limit, so this is the number itself: nothing wraps around.
      let i := Int64.ofInt (first.toInt + k)
      return (← Eval.rangeRound self name? body i).map Outcome.returned
    Eval.iterate round (return .done) 0 (limit.toInt - first.toInt).toNat

end Reading

end Tern
