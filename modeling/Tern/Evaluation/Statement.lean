import Tern.Evaluation.Conditional
import Tern.Evaluation.Declaration
import Tern.Evaluation.Expression
import Tern.Evaluation.Loop
import Tern.Token.Normal

/-!
# Statements

A statement is offered to the constructs of the language one after the other. A construct declines
what is not its own without moving the cursor; otherwise it reads all of itself, blocks included.
A `return` ends every block around it at once, up to the call that it belongs to.
-/

namespace Tern

/-- The kinds of statements. -/
inductive Construct where
  | comment | assertion | counted | whileLoop | range | conditional
  | variableDeclaration | functionDeclaration | expression
  deriving DecidableEq, Repr

namespace Construct

/-- The order in which statements are offered. -/
def chain : List Construct :=
  [.comment, .assertion, .counted, .whileLoop, .range, .conditional,
    .variableDeclaration, .functionDeclaration, .expression]

/-- The name of the construct. -/
def name : Construct → String
  | comment => "comment"
  | assertion => "assert"
  | counted => "repeat"
  | whileLoop => "while"
  | range => "from-to"
  | conditional => "conditional"
  | variableDeclaration => "variable-declaration"
  | functionDeclaration => "function-declaration"
  | expression => "statement"

end Construct

/-- Whether an expression can begin with this token. -/
def Kind.startsExpression : Kind → Bool
  | .symbol .leftParen | .symbol .bang | .symbol .minus
  | .str _ | .number _ | .keyword .trueKw | .keyword .falseKw | .ident _ => true
  | _ => false

namespace Reading

/-- Comments, which do nothing. -/
def comment : Reading Outcome := do
  match (← get).front.map Token.kind with
  | some (.lineComment _) | some (.symbol .commentOpen) =>
    scan Scan.comments
    return .done
  | _ => return .declined

/-- `assert e`: fails unless `e` holds, and shows `e` without comments. -/
def assertion (self : Evaluator) : Reading Outcome :=
  after .assertKw do
    let start ← get
    let value ← self .expression
    if value.isTruthy then
      return .done
    else
      let condition := normalize ((← get).passedSince start.position)
      -- The place is that of the condition, not of the keyword.
      raiseAt start.here (.assertionFailed condition)

/-- An expression, evaluated for what it does. -/
def expressionStatement (self : Evaluator) : Reading Outcome := do
  match ← peek with
  | some token =>
    if token.kind.startsExpression then
      let _ ← self .expression
      return .done
    else
      return .declined
  | none => return .declined

/-- Offers the tokens ahead to a construct. -/
def attempt (self : Evaluator) (fuel : Nat) : Construct → Reading Outcome
  | .comment => comment
  | .assertion => assertion self
  | .counted => counted self
  | .whileLoop => whileLoop self fuel
  | .range => range self
  | .conditional => conditional self
  | .variableDeclaration => variableDeclaration self
  | .functionDeclaration => functionDeclaration
  | .expression => expressionStatement self

/-- Offers the tokens ahead to the constructs in turn, until one does not decline. -/
def firstOf (self : Evaluator) (fuel : Nat) : List Construct → Reading Outcome
  | [] => return .declined
  | construct :: others => do
    match ← attempt self fuel construct with
    | .declined => firstOf self fuel others
    | outcome => return outcome

/-- The value of a `return` that stands at `span`: that of the expression behind it, or `void` if
there is none. -/
def returned (self : Evaluator) (span : Span) : Reading Value := do
  if (← getThe Session).env.atRoot then
    raiseAt span (.malformed .returnAtRoot)
  else
    let _ ← next
    if (← get).atEnd then
      return .void
    else
      locate span (self .expression)

/-- Statements up to the end of the tokens or a `return`. -/
def statements (self : Evaluator) (fuel : Nat) (paced : Bool) : Reading (Option Value) := do
  match (← get).front with
  | none => return none
  | some token =>
    match token.kind with
    -- Blocks are cut out between their braces, so this one has no partner.
    | .symbol .rightBrace => raiseAt token.span (.malformed .unmatchedBrace)
    | .keyword .returnKw => some <$> returned self token.span
    | kind =>
      if paced then modifyThe Session Session.pace
      -- A fault that knows its place keeps it; the others get that of the statement.
      match ← locate token.span (firstOf self fuel Construct.chain) with
      | .declined => raiseAt token.span (.unknownToken kind.text)
      | .done => self (.statements true)
      | .returned value => return some value

end Reading

end Tern
