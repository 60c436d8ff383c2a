import Tern.Evaluation.Outcome

/-!
# Declarations

A declaration binds a name in the innermost scope. The declared type of a variable is not asked
for the value it starts with, only for values assigned later.
-/

namespace Tern

namespace Eval

/-- Makes a function and declares it. -/
def declareFunction (name : String) (parameters : List Parameter) (returns : Option Ty)
    (body : List Token) : Eval Unit := do
  let id := (← get).nextId
  modify fun session => { session with nextId := id + 1 }
  define name
    { isFinal := true
      type := some .function
      value := .function { id, name, parameters, returns, body := .tokens body } }

end Eval

namespace Reading

/-- A name and an optional type, an equals sign and the value, behind `var` or `val`. -/
def declared (self : Evaluator) (isFinal : Bool) : Reading Outcome := do
  let span ← here
  let name ← scan (Scan.identifier "variable name")
  let type ← scan Scan.annotation
  expect (.symbol .equal) "`=` in declaration"
  let value ← self .expression
  locate span (Eval.define name { isFinal, type, value })
  return .done

/-- `var x = e`, or `val x = e` for a variable that never changes. -/
def variableDeclaration (self : Evaluator) : Reading Outcome := do
  if ← accept (.keyword .varKw) then declared self false
  else after .valKw (declared self true)

/-- `def f(x) { ... }`: the block is kept for calls, not executed. -/
def functionDeclaration : Reading Outcome :=
  after .defKw do
    let span ← here
    let name ← scan (Scan.identifier "function name")
    expect (.symbol .leftParen) "`(` to start the parameter list"
    let parameters ← scan Scan.parameters
    let returns ← scan Scan.annotation
    expect (.symbol .leftBrace) "`\x7b` to start the function body"
    let body ← scan Scan.block
    locate span (Eval.declareFunction name parameters returns body)
    return .done

end Reading

end Tern
