import Tern.Cursor.Scan
import Tern.Value.Basic

/-!
# Headers and skipped arms

Scans for the fixed parts of declarations and conditionals: type annotations, parameter lists, and
the arms of a conditional behind the one that was taken.
-/

namespace Tern

namespace Scan

/-- A type name; `any` leaves the type open. -/
def typeName : Scan (Option Ty) := do
  let span := (← get).here
  let name ← identifier "type name"
  if name = "any" then
    return none
  else
    match Ty.ofName? name with
    | some type => return some type
    | none => throw (.malformed (.unknownType name) span)

/-- A colon and a type name, or nothing. -/
def annotation : Scan (Option Ty) := do
  if ← accept (.symbol .colon) then typeName else return none

/-- One or more parameters, separated by commas, through the closing parenthesis. -/
def moreParameters : (steps : Nat) → Scan (List Parameter)
  -- Not reached: every parameter takes a token at least.
  | 0 => return []
  | steps + 1 => do
    let name ← identifier "parameter name"
    let type ← annotation
    if ← accept (.symbol .rightParen) then
      return [{ name, type }]
    else
      let _ ← expect (.symbol .comma) "`,` or `)` in parameter list"
      return { name, type } :: (← moreParameters steps)

/-- A parameter list whose opening parenthesis is behind the cursor. -/
def parameters : Scan (List Parameter) := do
  if ← accept (.symbol .rightParen) then
    return []
  else
    moreParameters ((← get).rest.length + 1)

/-- The arms of a conditional behind the one that was taken, at most `steps` of them. -/
def skipMoreArms : (steps : Nat) → Scan Unit
  | 0 => return
  | steps + 1 => do
    if ← accept (.keyword .elseKw) then
      if ← accept (.keyword .ifKw) then
        let _ ← untilBrace "`\x7b` after condition"
        skipBlock
        skipMoreArms steps
      else
        let _ ← expect (.symbol .leftBrace) "`\x7b` after else"
        skipBlock

/-- Steps over the arms of a conditional behind the one that was taken. -/
def skipArms : Scan Unit := do
  skipMoreArms (← get).rest.length

end Scan

end Tern
