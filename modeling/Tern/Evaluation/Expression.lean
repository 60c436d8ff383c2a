import Tern.Evaluation.Call
import Tern.Operator

/-!
# Expressions

An expression is read by tiers, loosest first:

* logical operators, comparison, additive, multiplicative, then unary operators;
* at the core literals, parentheses, and names, which may be called, assigned to, or stepped.

All binary tiers group to the right, so `10 - 3 - 2` is `10 - (3 - 2)`. Of comparisons at most one
stands without parentheses. Operands are evaluated from left to right, always all of them.
-/

namespace Tern

namespace Eval

/-- Adds one to the number in a variable, or takes one away, and gives the old number. -/
def step (name : String) (binding : Variable) (increment : Bool) : Eval Value :=
  if binding.isFinal then
    raise (.constantViolation name)
  else
    match binding.value.number? with
    | none => raise (.invalidOperand (if increment then "++" else "--") binding.value.typeName)
    | some n =>
      match if increment then Number.add? n 1 else Number.sub? n 1 with
      | none => raise (.integerOverflow (if increment then "increment" else "decrement"))
      | some changed => do
        assign name (.number changed)
        return binding.value

end Eval

namespace Reading

/-- The operator of the tier that is next, if one is, and its place. -/
def operatorAhead (tier : Tier) : Reading (Option (BinaryOp × Span)) := do
  match ← peek with
  | some token => return (tier.operator? token.kind).map fun op => (op, token.span)
  | none => return none

/-- The result of an operator at this place. -/
def computed (span : Span) : Except Cause Value → Reading Value
  | .ok value => return value
  | .error cause => raiseAt span cause

/-- One operand, and if an operator of the tier follows, it and all the rest of the tier. -/
def rightGrouped (tier : Tier) (operand others : Reading Value) : Reading Value := do
  let left ← operand
  match ← operatorAhead tier with
  | none => return left
  | some (op, span) =>
    let _ ← next
    let right ← others
    computed span (op.apply left right)

/-- The arguments of a call whose opening parenthesis is behind the cursor. -/
def callArguments (self : Evaluator) : Reading (List Value) := do
  if ← accept (.symbol .rightParen) then return [] else self .arguments

/-- What a name that stands at `span` means: a call, an assignment, a step up or down, or the
value of the variable. -/
def named (self : Evaluator) (name : String) (span : Span) : Reading Value := do
  match (← getThe Session).env.lookup name with
  | none => raiseAt span (.undefinedVariable name)
  | some binding =>
    match ← peekKind with
    | some (.symbol .leftParen) =>
      -- The function is settled here, whatever the arguments assign to its name.
      match binding.value with
      | .function function =>
        let _ ← next
        locate span do
          let arguments ← callArguments self
          Eval.call self function arguments
      | other => raiseAt span (.typeMismatch Ty.function.name other.typeName)
    | some (.symbol .equal) =>
      -- A final variable is refused before the value is evaluated.
      if binding.isFinal then
        raiseAt span (.constantViolation name)
      else
        let _ ← next
        let value ← self .expression
        locate span (Eval.assign name value)
        return value
    | some (.symbol .plusPlus) =>
      let _ ← next
      locate span (Eval.step name binding true)
    | some (.symbol .minusMinus) =>
      let _ ← next
      locate span (Eval.step name binding false)
    | _ => return binding.value

/-- A literal, a name, or an expression in parentheses. -/
def primary (self : Evaluator) : Reading Value := do
  let span ← here
  match ← next with
  | none => raiseAt span (.malformed (.endOfInput "expression"))
  | some token =>
    match token.kind with
    | .symbol .leftParen =>
      let value ← self .expression
      expect (.symbol .rightParen) "`)` to close the parenthesis"
      return value
    | .str text => return .text text
    | .number n => return .number n
    | .keyword .trueKw => return .boolean true
    | .keyword .falseKw => return .boolean false
    | .ident name => named self name span
    | .unknown text => raiseAt span (.unknownToken text)
    | other => raiseAt span (.malformed (.expected "expression" other.text))

/-- A core expression with unary operators in front. -/
def unary (self : Evaluator) : Reading Value := do
  match ← peek with
  | none => primary self
  | some token =>
    match UnaryOp.ofKind? token.kind with
    | none => primary self
    | some op =>
      let _ ← next
      let operand ← self .unary
      computed token.span (op.apply operand)

/-- Factors joined by multiplicative operators. -/
def multiplicative (self : Evaluator) : Reading Value :=
  rightGrouped .multiplicative (unary self) (self .multiplicative)

/-- Terms joined by additive operators. -/
def additive (self : Evaluator) : Reading Value :=
  rightGrouped .additive (multiplicative self) (self .additive)

/-- One sum, or two of them compared. -/
def comparison (self : Evaluator) : Reading Value := do
  let left ← additive self
  match ← operatorAhead .comparison with
  | none => return left
  | some (op, span) =>
    let _ ← next
    let right ← additive self
    -- Another comparison is refused before this one is computed, so no other fault comes first.
    match ← operatorAhead .comparison with
    | some (_, next) => raiseAt next (.malformed .chainedComparison)
    | none => computed span (op.apply left right)

/-- Comparisons joined by logical operators: a whole expression. -/
def logical (self : Evaluator) : Reading Value :=
  rightGrouped .logical (comparison self) (self .expression)

/-- One or more arguments, separated by commas, through the closing parenthesis. -/
def arguments (self : Evaluator) : Reading (List Value) := do
  let first ← self .expression
  if ← accept (.symbol .rightParen) then
    return [first]
  else
    expect (.symbol .comma) "`,` or `)` in argument list"
    return first :: (← self .arguments)

end Reading

end Tern
