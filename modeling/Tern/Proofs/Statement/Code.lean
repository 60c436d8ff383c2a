import Tern.Evaluation.Run
import Tern.Proofs.Expression.Parsing

/-!
# Statements as trees

Statements are executed straight from tokens. This file says what ought to be executed: statements
as trees with the tokens they are written with, and the meaning of a tree, by recursion on it.

Statements stand one after the other without separators. So a tree is well formed only if no
statement that ends in an expression is followed by one that would carry the expression on, and if
a `return` without a value is the last of its statements.

The meaning of a statement is a result if it returned, and none if execution goes on behind it.
-/

namespace Tern

/-- A type behind a name: none, `: any`, or `: T`. -/
inductive Typing where
  | absent
  | any
  | only (type : Ty)
  deriving DecidableEq, Repr

namespace Typing

/-- The tokens it is written with. -/
def kinds : Typing → List Kind
  | absent => []
  | any => [.symbol .colon, .ident "any"]
  | only type => [.symbol .colon, .ident type.name]

/-- The type that is asked for. -/
def type? : Typing → Option Ty
  | only type => some type
  | _ => none

end Typing

/-- The tokens of parameters behind the first one, through the closing parenthesis. -/
def furtherParameterKinds : List (String × Typing) → List Kind
  | [] => [.symbol .rightParen]
  | (name, typing) :: others =>
    .symbol .comma :: .ident name :: (typing.kinds ++ furtherParameterKinds others)

/-- The tokens of parameters, through the closing parenthesis. -/
def parameterKinds : List (String × Typing) → List Kind
  | [] => [.symbol .rightParen]
  | (name, typing) :: others => .ident name :: (typing.kinds ++ furtherParameterKinds others)

/-- The tokens of a block. -/
def braced (kinds : List Kind) : List Kind :=
  .symbol .leftBrace :: kinds ++ [.symbol .rightBrace]

/-- The tokens of a loop variable. -/
def loopNameKinds : Option String → List Kind
  | some name => [.keyword .withKw, .ident name]
  | none => []

/-- The parts that programs are made of. -/
inductive Part where
  | statement
  /-- The arms of a conditional, from a condition on. -/
  | arms
  /-- Statements in a row. -/
  | block
  deriving DecidableEq, Repr

/-- Programs and their parts. -/
inductive Code : Part → Type where
  | assertion (condition : Tree .expression) : Code .statement
  | counted (count : Tree .expression) (body : Code .block) : Code .statement
  | whileLoop (condition : Tree .expression) (body : Code .block) : Code .statement
  | range (first limit : Tree .expression) (name? : Option String) (body : Code .block) :
      Code .statement
  | conditional (arms : Code .arms) : Code .statement
  | declaration (isFinal : Bool) (name : String) (typing : Typing) (value : Tree .expression) :
      Code .statement
  | definition (name : String) (parameters : List (String × Typing)) (returns : Typing)
      (body : Code .block) : Code .statement
  | expression (value : Tree .expression) : Code .statement
  /-- `return`, with a value or without. -/
  | returning (value? : Option (Tree .expression)) : Code .statement
  /-- The last arm, if it has a condition. -/
  | lone (condition : Tree .expression) (body : Code .block) : Code .arms
  | orElse (condition : Tree .expression) (body others : Code .block) : Code .arms
  | orIf (condition : Tree .expression) (body : Code .block) (others : Code .arms) : Code .arms
  /-- No statement. -/
  | done : Code .block
  | next (first : Code .statement) (rest : Code .block) : Code .block

namespace Code

/-- The tokens that the tree is written with. -/
def kinds : Code part → List Kind
  | assertion condition => .keyword .assertKw :: condition.kinds
  | counted count body => .keyword .repeatKw :: (count.kinds ++ braced body.kinds)
  | whileLoop condition body => .keyword .whileKw :: (condition.kinds ++ braced body.kinds)
  | range first limit name? body =>
    .keyword .fromKw :: (first.kinds ++ .keyword .toKw ::
      (limit.kinds ++ (loopNameKinds name? ++ braced body.kinds)))
  | conditional arms => .keyword .ifKw :: arms.kinds
  | declaration isFinal name typing value =>
    .keyword (if isFinal then .valKw else .varKw) :: .ident name ::
      (typing.kinds ++ .symbol .equal :: value.kinds)
  | definition name parameters returns body =>
    .keyword .defKw :: .ident name :: .symbol .leftParen ::
      (parameterKinds parameters ++ (returns.kinds ++ braced body.kinds))
  | expression value => value.kinds
  | returning none => [.keyword .returnKw]
  | returning (some value) => .keyword .returnKw :: value.kinds
  | lone condition body => condition.kinds ++ braced body.kinds
  | orElse condition body others =>
    condition.kinds ++ (braced body.kinds ++ .keyword .elseKw :: braced others.kinds)
  | orIf condition body others =>
    condition.kinds ++ (braced body.kinds ++ .keyword .elseKw :: .keyword .ifKw :: others.kinds)
  | done => []
  | next first rest => first.kinds ++ rest.kinds

/-- Whether the statement ends in front of the token: an expression at its end is not carried on,
and a `return` without a value is not given one. -/
def EndsBefore (next : Option Kind) : Code .statement → Prop
  | assertion value | declaration _ _ _ value | expression value | returning (some value) =>
    value.EndsBefore next
  | returning none => next = none
  | _ => True

/-- Programs whose tokens are read as they are written. -/
def WellFormed : Code part → Prop
  | assertion value | declaration _ _ _ value | expression value | returning (some value) =>
    value.Admitted
  | counted value body | whileLoop value body | lone value body =>
    value.Admitted ∧ body.WellFormed
  | range first limit _ body => first.Admitted ∧ limit.Admitted ∧ body.WellFormed
  | conditional arms => arms.WellFormed
  | definition _ _ _ body => body.WellFormed
  | orElse condition body others => condition.Admitted ∧ body.WellFormed ∧ others.WellFormed
  | orIf condition body others => condition.Admitted ∧ body.WellFormed ∧ others.WellFormed
  | next first rest => first.WellFormed ∧ rest.WellFormed ∧ first.EndsBefore rest.kinds.head?
  | returning none | done => True

instance (next : Option Kind) : (s : Code .statement) → Decidable (s.EndsBefore next)
  | assertion value | declaration _ _ _ value | expression value | returning (some value) =>
    inferInstanceAs (Decidable (value.EndsBefore next))
  | returning none => inferInstanceAs (Decidable (next = none))
  | counted .. | whileLoop .. | range .. | conditional _ | definition .. => isTrue trivial

/-- Whether a program is well formed can be computed. -/
instance decidableWellFormed : (code : Code part) → Decidable code.WellFormed
  | assertion value | declaration _ _ _ value | expression value | returning (some value) =>
    inferInstanceAs (Decidable value.Admitted)
  | counted _ body | whileLoop _ body | lone _ body =>
    have := decidableWellFormed body
    inferInstanceAs (Decidable (_ ∧ _))
  | range _ _ _ body =>
    have := decidableWellFormed body
    inferInstanceAs (Decidable (_ ∧ _ ∧ _))
  | conditional arms => decidableWellFormed arms
  | definition _ _ _ body => decidableWellFormed body
  | orElse _ body others | orIf _ body others =>
    have := decidableWellFormed body
    have := decidableWellFormed others
    inferInstanceAs (Decidable (_ ∧ _ ∧ _))
  | next first rest =>
    have := decidableWellFormed first
    have := decidableWellFormed rest
    inferInstanceAs (Decidable (_ ∧ _ ∧ _))
  | returning none | done => isTrue trivial

end Code

namespace Eval

/-- The number that the value is. -/
def asNumber (value : Value) : Eval Number :=
  match value.number? with
  | some n => return n
  | none => raise (.typeMismatch Ty.number.name value.typeName)

end Eval

namespace Code

/-- Executes a part of a program: statements in order, each block and each round of a loop in a new
scope. The result is that of a `return`, which ends everything around it; in the outermost
statements it is not allowed. `call` is what becomes of a function and its arguments, and `rounds`
bounds the rounds of `while` loops. -/
def exec (call : Callable → List Value → Eval Value) (rounds : Nat) :
    Code part → (outermost : Bool) → Eval (Option Value)
  | assertion condition, _ => do
    if (← condition.eval call).isTruthy then
      return none
    else
      Eval.raise (.assertionFailed (spaced (condition.kinds.map Kind.text)))
  | counted count body, _ => do
    let count ← Eval.asNumber (← count.eval call)
    let round := fun _ => return (← Eval.inScope (body.exec call rounds false)).map some
    Eval.iterate round (return none) 0 count.toInt.toNat
  | whileLoop condition body, _ =>
    let round := fun _ => do
      if (← condition.eval call).isTruthy then
        return (← Eval.inScope (body.exec call rounds false)).map some
      else
        return some none
    Eval.iterate round (throw .outOfFuel) 0 rounds
  | range first limit name? body, _ => do
    let first ← Eval.asNumber (← first.eval call)
    let limit ← Eval.asNumber (← limit.eval call)
    let round := fun (k : Nat) => do
      let returned ← Eval.inScope do
        match name? with
        | some name =>
          let i := Int64.ofInt (first.toInt + k)
          Eval.define name { isFinal := true, type := some .number, value := .number i }
        | none => pure ()
        body.exec call rounds false
      return returned.map some
    Eval.iterate round (return none) 0 (limit.toInt - first.toInt).toNat
  | conditional arms, _ => arms.exec call rounds false
  | declaration isFinal name typing value, _ => do
    let value ← value.eval call
    Eval.define name { isFinal, type := typing.type?, value }
    return none
  | definition name parameters returns body, _ => do
    let parameters := parameters.map fun (name, typing) => { name, type := typing.type? }
    Eval.declareFunction name parameters returns.type? (body.kinds.map Kind.bare)
    return none
  | expression value, _ => do
    let _ ← value.eval call
    return none
  | returning value?, outermost =>
    if outermost then
      Eval.raise (.malformed .returnAtRoot)
    else
      match value? with
      | some value => do return some (← value.eval call)
      | none => return some .void
  | lone condition body, _ => do
    if (← condition.eval call).isTruthy then
      Eval.inScope (body.exec call rounds false)
    else
      return none
  | orElse condition body others, _ => do
    if (← condition.eval call).isTruthy then
      Eval.inScope (body.exec call rounds false)
    else
      Eval.inScope (others.exec call rounds false)
  | orIf condition body others, _ => do
    if (← condition.eval call).isTruthy then
      Eval.inScope (body.exec call rounds false)
    else
      others.exec call rounds false
  | done, _ => return none
  | next first rest, outermost => do
    match ← first.exec call rounds outermost with
    | some value => return some value
    | none => rest.exec call rounds outermost

/-- The statements are well formed, and the tokens are theirs, comments and places aside. -/
def Spells (tokens : List Token) (code : Code .block) : Prop :=
  code.WellFormed ∧ Token.bare tokens = code.kinds.map Kind.bare

instance (tokens : List Token) (code : Code .block) : Decidable (Spells tokens code) :=
  inferInstanceAs (Decidable (_ ∧ _))

open Classical in
/-- Executes the body of a function: the statements that the tokens spell, or the tokens themselves
if they spell none. -/
noncomputable def execTokens (call : Callable → List Value → Eval Value) (fuel : Nat)
    (tokens : List Token) : Eval (Option Value) :=
  if h : ∃ code, Spells tokens code then
    h.choose.exec call fuel false
  else
    Reading.onTokens tokens (Phrase.run (2 * (fuel + 1)) (.statements true))

/-- Executes the body of a function, with calls in it treated alike. `fuel` bounds how deeply calls
may be nested and how often a `while` loop may go round. -/
noncomputable def execBody : (fuel : Nat) → (tokens : List Token) → Eval (Option Value)
  | 0, _ => throw .outOfFuel
  | fuel + 1, tokens => execTokens (Eval.callWith (execBody fuel)) fuel tokens

/-- Runs a program in the root scope. -/
noncomputable def run (code : Code .block) (fuel : Nat) (session : Session) :
    Except Halt Value × Session :=
  { session with env := session.env.reset, callDepth := 0 }.evaluate do
    return (← code.exec (Eval.callWith (execBody fuel)) fuel true).getD .void

end Code

end Tern
