import Tern.Evaluation.Expression

/-!
# Expressions as trees

The evaluator reads expressions straight from tokens. This file says what it ought to read and do:
the grammar, as trees with the tokens they are written with, and the meaning of a tree, by
recursion on it.

The grammar, loosest rule first:

* logical: comparison, or comparison `&&`/`||` logical;
* comparison: additive, or additive, one of `==` `!=` `<` `>` `<=` `>=`, additive;
* additive: multiplicative, or multiplicative `+`/`-` additive;
* multiplicative: unary, or unary `*`/`/`/`%` multiplicative;
* unary: `!`/`-` unary, or primary;
* primary: a literal, a name, `( logical )`, a call, `name = logical`, `name++`, `name--`.

The right side of an assignment extends as far as it can, so a tree is admitted only if no
assignment without parentheses stands at the right end of the left operand of a binary operator.
-/

namespace Tern

/-- The tier that the operator belongs to. -/
def BinaryOp.tier : BinaryOp → Tier
  | and | or => .logical
  | eq | ne | lt | gt | le | ge => .comparison
  | add | sub => .additive
  | mul | div | mod => .multiplicative

/-- A token stands for an operator of a tier exactly if it is that operator's symbol. -/
theorem Tier.operator?_eq_some_iff {tier : Tier} {kind : Kind} {op : BinaryOp} :
    tier.operator? kind = some op ↔ kind = .symbol op.mark ∧ op.tier = tier := by
  constructor
  · intro h
    unfold Tier.operator? at h
    split at h <;> first | (cases h; exact ⟨rfl, rfl⟩) | cases h
  · rintro ⟨rfl, rfl⟩
    cases op <;> rfl

/-- How loosely a rule of the grammar binds: primary 0, unary 1, then the tiers. -/
def Tier.level : Tier → Nat
  | multiplicative => 2
  | additive => 3
  | comparison => 4
  | logical => 5

/-- How loosely the operand on the right of an operator may bind: as loosely as the tier itself,
but a comparison is not compared again. -/
def Tier.rightLevel : Tier → Nat
  | comparison => 3
  | tier => tier.level

/-- The two forms of the grammar. -/
inductive Form where
  /-- An expression of any level. -/
  | expression
  /-- One or more arguments of a call. -/
  | arguments
  deriving DecidableEq, Repr

/-- What a form evaluates to. -/
abbrev Form.Result : Form → Type
  | expression => Value
  | arguments => List Value

/-- Syntax trees. -/
inductive Tree : Form → Type where
  | number (n : Number) : Tree .expression
  | text (s : String) : Tree .expression
  | truth (b : Bool) : Tree .expression
  /-- The value of a variable. -/
  | read (name : String) : Tree .expression
  /-- An expression in parentheses. -/
  | group (inner : Tree .expression) : Tree .expression
  /-- A call without arguments. -/
  | callNone (name : String) : Tree .expression
  | call (name : String) (arguments : Tree .arguments) : Tree .expression
  | assign (name : String) (value : Tree .expression) : Tree .expression
  /-- `name++` or `name--`. -/
  | step (name : String) (increment : Bool) : Tree .expression
  | unary (op : UnaryOp) (operand : Tree .expression) : Tree .expression
  | binary (op : BinaryOp) (left right : Tree .expression) : Tree .expression
  | last (argument : Tree .expression) : Tree .arguments
  | more (argument : Tree .expression) (others : Tree .arguments) : Tree .arguments
  deriving DecidableEq, Repr

namespace Tree

/-- The tokens that the tree is written with. -/
def kinds : Tree form → List Kind
  | number n => [.number n]
  | text s => [.str s]
  | truth b => [.keyword (if b then .trueKw else .falseKw)]
  | read name => [.ident name]
  | group inner => .symbol .leftParen :: (inner.kinds ++ [.symbol .rightParen])
  | callNone name => [.ident name, .symbol .leftParen, .symbol .rightParen]
  | call name arguments =>
    .ident name :: .symbol .leftParen :: (arguments.kinds ++ [.symbol .rightParen])
  | assign name value => .ident name :: .symbol .equal :: value.kinds
  | step name increment =>
    [.ident name, .symbol (if increment then .plusPlus else .minusMinus)]
  | unary op operand => .symbol op.mark :: operand.kinds
  | binary op left right => left.kinds ++ .symbol op.mark :: right.kinds
  | last argument => argument.kinds
  | more argument others => argument.kinds ++ .symbol .comma :: others.kinds

/-- How loosely the tree binds. -/
def level : Tree form → Nat
  | unary .. => 1
  | binary op .. => op.tier.level
  | _ => 0

/-- Whether an assignment without parentheses stands at the right end. -/
def endsInAssignment : Tree form → Bool
  | assign .. => true
  | unary _ operand => operand.endsInAssignment
  | binary _ _ right => right.endsInAssignment
  | _ => false

/-- The trees of the grammar: operands bind tightly enough, and no assignment is cut short by a
binary operator behind it. -/
def Admitted : Tree form → Prop
  | group inner => inner.Admitted
  | call _ arguments => arguments.Admitted
  | assign _ value => value.Admitted
  | unary _ operand => operand.level ≤ 1 ∧ operand.Admitted
  | binary op left right =>
    left.level < op.tier.level ∧ right.level ≤ op.tier.rightLevel ∧
      left.endsInAssignment = false ∧ left.Admitted ∧ right.Admitted
  | last argument => argument.Admitted
  | more argument others => argument.Admitted ∧ others.Admitted
  | _ => True

/-- Whether a tree is admitted can be computed. -/
instance decidableAdmitted : (t : Tree form) → Decidable t.Admitted
  | number _ | text _ | truth _ | read _ | callNone _ | step .. => isTrue trivial
  | group inner => decidableAdmitted inner
  | call _ arguments => decidableAdmitted arguments
  | assign _ value => decidableAdmitted value
  | unary _ operand =>
    have := decidableAdmitted operand
    inferInstanceAs (Decidable (_ ∧ _))
  | binary _ left right =>
    have := decidableAdmitted left
    have := decidableAdmitted right
    inferInstanceAs (Decidable (_ ∧ _ ∧ _ ∧ _ ∧ _))
  | last argument => decidableAdmitted argument
  | more argument others =>
    have := decidableAdmitted argument
    have := decidableAdmitted others
    inferInstanceAs (Decidable (_ ∧ _))

end Tree

namespace Eval

/-- The variable of that name. -/
def variableNamed (name : String) : Eval Variable := do
  match (← get).env.lookup name with
  | some binding => return binding
  | none => raise (.undefinedVariable name)

/-- The function in the variable of that name. -/
def functionNamed (name : String) : Eval Callable := do
  match (← variableNamed name).value with
  | .function function => return function
  | other => raise (.typeMismatch Ty.function.name other.typeName)

/-- Calls a function whose body is known: checks the arguments and the limit on nested calls, and
executes the body in a scope of its own that starts with the parameters. -/
def enter (function : Callable) (arguments : List Value) (body : Eval (Option Value)) :
    Eval Value := do
  orRaise (function.check arguments)
  let session ← get
  if session.settings.maxCallDepth ≤ session.callDepth then
    raise (.recursionLimit session.settings.maxCallDepth)
  else
    let returned ← inCall function.name <| inScope do
      bindParameters function.parameters arguments
      body
    return returned.getD .void

/-- Calls a function, given what becomes of the tokens of a body. -/
def callWith (execute : List Token → Eval (Option Value)) (function : Callable)
    (arguments : List Value) : Eval Value :=
  match function.body with
  | .native routine true => routine.run arguments
  | .native routine false => do
    orRaise (function.check arguments)
    routine.run arguments
  | .tokens tokens => enter function arguments (execute tokens)

/-- A call executes the tokens of the body as statements. -/
theorem call_eq (self : Evaluator) :
    call self = callWith fun tokens => Reading.onTokens tokens (self (.statements true)) := by
  funext function arguments
  unfold call callWith
  cases function.body with
  | tokens tokens => rfl
  | native routine variadic => cases variadic <;> rfl

end Eval

/-- Evaluates a tree: operands from left to right and always all of them, the function of a call
before its arguments, the target of an assignment before its value. `call` is what becomes of a
function and its arguments. -/
def Tree.eval (call : Callable → List Value → Eval Value) : Tree form → Eval form.Result
  | number n => return .number n
  | text s => return .text s
  | truth b => return .boolean b
  | read name => do return (← Eval.variableNamed name).value
  | group inner => inner.eval call
  | callNone name => do call (← Eval.functionNamed name) []
  | .call name arguments => do
    let function ← Eval.functionNamed name
    call function (← arguments.eval call)
  | assign name value => do
    if (← Eval.variableNamed name).isFinal then
      Eval.raise (.constantViolation name)
    else
      let value ← value.eval call
      Eval.assign name value
      return value
  | step name increment => do
    Eval.step name (← Eval.variableNamed name) increment
  | unary op operand => do
    Eval.orRaise (op.apply (← operand.eval call))
  | binary op left right => do
    let left ← left.eval call
    let right ← right.eval call
    Eval.orRaise (op.apply left right)
  | last argument => do return [← argument.eval call]
  | more argument others => do
    let first ← argument.eval call
    return first :: (← others.eval call)

end Tern
