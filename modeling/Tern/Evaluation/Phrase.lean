import Tern.Cursor.Header
import Tern.Evaluation.Basic

/-!
# Phrases

Programs are evaluated straight from their tokens: there is no tree in between. Reading is
evaluation with a cursor that moves along.

The forms that may contain each other without end are listed by `Phrase`, each with the type of
its result. The rules of evaluation are written for an `Evaluator` that takes care of the phrases
inside; the modules after this one give the rules, and tie the knot with fuel.
-/

namespace Tern

/-- An evaluation that reads tokens. -/
abbrev Reading := StateT Cursor Eval

/-- A form that may occur inside itself. -/
inductive Phrase : Type → Type where
  /-- An expression, from its loosest tier on. -/
  | expression : Phrase Value
  /-- Terms joined by `+` and `-`. -/
  | additive : Phrase Value
  /-- Factors joined by `*`, `/` and `%`. -/
  | multiplicative : Phrase Value
  /-- An operand with its unary operators. -/
  | unary : Phrase Value
  /-- One or more arguments, through the closing parenthesis. -/
  | arguments : Phrase (List Value)
  /-- The arms of a conditional, from a condition on; the result is that of a `return` inside. -/
  | arms : Phrase (Option Value)
  /-- Statements up to the end of the tokens; the result is that of a `return` among them. `paced`
  says whether there is a pause before the first. -/
  | statements (paced : Bool) : Phrase (Option Value)

/-- A way to evaluate all phrases. -/
abbrev Evaluator := ∀ ⦃α : Type⦄, Phrase α → Reading α

namespace Reading

/-- Moves the cursor by a scan. -/
def scan (x : Scan α) : Reading α := fun cursor session =>
  match x cursor with
  | .ok result cursor => .ok (result, cursor) session
  | .error fault _ => .error (.fault fault) session

/-- Reads all of `tokens`, from the first. -/
def onTokens (tokens : List Token) (x : Reading α) : Eval α := do
  let (result, _) ← x (Cursor.start tokens)
  return result

/-- Adds a place to a fault that has none yet. -/
def locate (span : Span) (x : Reading α) : Reading α := fun cursor =>
  Eval.locate span (x cursor)

/-- Fails for this cause at this place. -/
def raiseAt (span : Span) (cause : Cause) : Reading α :=
  throw (.fault { cause, span := some span })

/-- The next token outside comments. -/
def peek : Reading (Option Token) := return (← get).peek

/-- The kind of the next token outside comments. -/
def peekKind : Reading (Option Kind) := return (← get).peek.map Token.kind

/-- The place of the next token outside comments. -/
def here : Reading Span := return (← get).here

/-- Steps over the next token outside comments. -/
def next : Reading (Option Token) := scan Scan.next

/-- Steps over the next token if it is of this kind. -/
def accept (kind : Kind) : Reading Bool := scan (Scan.accept kind)

/-- Steps over the next token, which has to be of this kind. -/
def expect (kind : Kind) (what : String) : Reading Unit := do
  let _ ← scan (Scan.expect kind what)

end Reading

end Tern
