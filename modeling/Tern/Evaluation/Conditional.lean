import Tern.Evaluation.Call
import Tern.Evaluation.Outcome

/-!
# Conditionals

Of the arms of a conditional at most one is executed. The conditions in front of it are evaluated
in turn; arms that are not executed are stepped over brace by brace, whatever stands in them.
-/

namespace Tern

namespace Reading

/-- The arms of a conditional from a condition on: executes the block of the first arm whose
condition holds, or else that of `else`, and steps over all others. -/
def arms (self : Evaluator) : Reading (Option Value) := do
  let condition ← self .expression
  expect (.symbol .leftBrace) "`\x7b` after condition"
  if condition.isTruthy then
    let body ← scan Scan.block
    match ← Eval.block self body with
    -- The other arms stay unread, as does everything behind a `return`.
    | some value => return some value
    | none =>
      scan Scan.skipArms
      return none
  else
    scan Scan.skipBlock
    if ← accept (.keyword .elseKw) then
      if ← accept (.keyword .ifKw) then
        self .arms
      else
        expect (.symbol .leftBrace) "`\x7b` after else"
        let body ← scan Scan.block
        Eval.block self body
    else
      return none

/-- `if e { ... } else if e { ... } else { ... }`. -/
def conditional (self : Evaluator) : Reading Outcome :=
  after .ifKw do
    return .ofReturn (← self .arms)

end Reading

end Tern
