import Tern.Cursor.Basic
import Tern.Fault

/-!
# Scanning

A scan moves a cursor and gives a result or a fault. The cursor stays where the fault was noticed.
Scans recognise the fixed parts of a construct; they look at tokens only, never at values.

Scans that repeat a step take at most as many steps as there are tokens ahead, since every step
moves the cursor over at least one.
-/

namespace Tern

/-- A computation that moves a cursor. -/
abbrev Scan := EStateM Fault Cursor

namespace Scan

/-- Steps over the next token outside comments and gives it; stays in place if there is none. -/
def next : Scan (Option Token) := do
  match (← get).next? with
  | some (token, cursor) =>
    set cursor
    return some token
  | none => return none

/-- Steps over the next token if it is of this kind, and says whether it was. -/
def accept (kind : Kind) : Scan Bool := do
  if (← get).isAt kind then
    let _ ← next
    return true
  else
    return false

/-- Steps over the comments ahead. -/
def comments : Scan Unit := do
  match (← get).unclosed? with
  | some mark => throw (.malformed .unclosedComment mark.span)
  | none => modify Cursor.settle

/-- Steps over the next token and gives what `select` makes of it; it is a fault if there is no
token or `select` refuses it. -/
def expecting (what : String) (select : Token → Option α) : Scan α := do
  let span := (← get).here
  match ← next with
  | some token =>
    match select token with
    | some result => return result
    | none => throw (.malformed (.expected what token.kind.text) span)
  | none => throw (.malformed (.endOfInput what) span)

/-- Steps over a token of this kind. -/
def expect (kind : Kind) (what : String) : Scan Token :=
  expecting what fun token => if token.kind = kind then some token else none

/-- Steps over a name and gives it. -/
def identifier (what : String) : Scan String :=
  expecting what (·.kind.ident?)

/-- Steps over tokens through the first that `done` accepts, and says whether there is one. `done`
sees the nesting of braces at the token: how many were opened and not closed on the way. -/
def through (done : Nat → Kind → Bool) : (steps depth : Nat) → Scan Bool
  | 0, _ => return false
  | steps + 1, depth => do
    match ← next with
    | none => return false
    | some token =>
      if done depth token.kind then
        return true
      else if token.kind = .symbol .leftBrace then
        through done steps (depth + 1)
      else if token.kind = .symbol .rightBrace then
        -- At depth zero the brace closes nothing that was opened on the way; `done` decides on it.
        through done steps (depth - 1)
      else
        through done steps depth

/-- The tokens passed since the cursor was at `start`, without the last one. -/
def passed (start : Cursor) : Scan (List Token) := do
  let cursor ← get
  return (cursor.passedSince start.position).dropLast

/-- Steps over the rest of a block whose opening brace is behind the cursor, through its closing
brace, and gives the tokens between the braces. -/
def block : Scan (List Token) := do
  let start ← get
  let closed := fun depth kind => depth == 0 && kind == .symbol .rightBrace
  if ← through closed start.rest.length 0 then
    passed start
  else
    let stop ← get
    -- The fault stands at the opening brace, not where the tokens end.
    let span := (start.seen.head?.map (·.span)).getD stop.here
    throw (.malformed .unclosedBlock span)

/-- Steps over the rest of a block whose opening brace is behind the cursor. -/
def skipBlock : Scan Unit := do
  let _ ← block

/-- Steps over tokens through the next opening brace, and gives those in front of it. -/
def untilBrace (what : String) : Scan (List Token) := do
  let start ← get
  if ← through (fun _ kind => kind == .symbol .leftBrace) start.rest.length 0 then
    passed start
  else
    throw (.malformed (.endOfInput what) (← get).here)

end Scan

end Tern
