import Tern.Span

/-!
# Faults

Why a program fails. A `Cause` says what went wrong, `Cause.message` says it in words, and
`Cause.category` names the class of errors that it belongs to. A `Fault` adds where it happened
and through which functions it was passed on.
-/

namespace Tern

/-- Ways in which a token sequence is not a program. -/
inductive Malformed where
  /-- Said in words only. -/
  | text (message : String)
  /-- One thing was needed and another one stood there. -/
  | expected (what found : String)
  /-- The tokens ended where something was needed. -/
  | endOfInput (what : String)
  /-- A closing brace without an opening one. -/
  | unmatchedBrace
  /-- An opening brace without a closing one. -/
  | unclosedBlock
  /-- A block comment that does not end. -/
  | unclosedComment
  /-- A `return` that stands outside all blocks. -/
  | returnAtRoot
  /-- A comparison of a comparison without parentheses. -/
  | chainedComparison
  /-- Tokens behind a complete condition. -/
  | trailing (found : String)
  /-- A type annotation that names no type. -/
  | unknownType (name : String)
  deriving DecidableEq, Repr

/-- The complaint in words. -/
def Malformed.message : Malformed → String
  | text message => message
  | expected what found => "expected " ++ what ++ ", found `" ++ found ++ "`"
  | endOfInput what => "unexpected end of input, expected " ++ what
  | unmatchedBrace => "unmatched `\x7d`"
  | unclosedBlock => "unclosed block: missing `\x7d`"
  | unclosedComment => "unclosed block comment: missing `*/`"
  | returnAtRoot => "`return` outside of a block or function"
  | chainedComparison => "comparison operators cannot be chained"
  | trailing found => "unexpected `" ++ found ++ "` in while condition"
  | unknownType name => "unknown type `" ++ name ++ "`"

/-- What went wrong. -/
inductive Cause where
  | malformed (complaint : Malformed)
  | unknownToken (text : String)
  | undefinedVariable (name : String)
  | constantViolation (name : String)
  | typeMismatch (expected got : String)
  | invalidOperand (operator type : String)
  | operandMismatch (operator left right : String)
  | arityMismatch (name : String) (expected got : Nat)
  | recursionLimit (limit : Nat)
  | divisionByZero
  | integerOverflow (operation : String)
  | assertionFailed (message : String)
  /-- Raised by a routine of the host. -/
  | native (message : String)
  deriving DecidableEq, Repr

namespace Cause

/-- The class of errors that the cause belongs to. -/
def category : Cause → String
  | malformed _ => "SyntaxError"
  | unknownToken _ => "UnknownTokenError"
  | undefinedVariable _ => "UnknownVariableError"
  | constantViolation _ => "ConstantError"
  | typeMismatch .. | invalidOperand .. | operandMismatch .. => "TypeError"
  | arityMismatch .. => "ArityError"
  | recursionLimit _ => "RecursionError"
  | divisionByZero | integerOverflow _ => "ArithmeticError"
  | assertionFailed _ => "AssertionError"
  | native _ => "NativeError"

/-- The cause in words. -/
def message : Cause → String
  | malformed complaint => complaint.message
  | unknownToken text => "unexpected token `" ++ text ++ "`"
  | undefinedVariable name => "undefined variable: " ++ name
  | constantViolation name => "cannot change the value of constant `" ++ name ++ "`"
  | typeMismatch expected got => "type mismatch: expected " ++ expected ++ ", got " ++ got
  | invalidOperand operator type => "operator `" ++ operator ++ "` cannot be applied to " ++ type
  | operandMismatch operator left right =>
    "operator `" ++ operator ++ "` cannot be applied to " ++ left ++ " and " ++ right
  | arityMismatch name expected got =>
    name ++ " expects " ++ toString expected ++ " argument(s), got " ++ toString got
  | recursionLimit limit => "maximum call depth exceeded (limit: " ++ toString limit ++ ")"
  | divisionByZero => "division by zero"
  | integerOverflow operation => "integer overflow in " ++ operation
  | assertionFailed message => "assertion failed: " ++ message
  | native message => message

end Cause

/-- A failure on its way to whoever started the program. -/
structure Fault where
  cause : Cause
  /-- The place of the failing token or statement, once known. -/
  span : Option Span := none
  /-- The functions that the failure has left, latest first. -/
  unwound : List String := []
  deriving DecidableEq, Repr

namespace Fault

/-- Adds a place, unless a more precise one is known. -/
def located (fault : Fault) (span : Span) : Fault :=
  { fault with span := fault.span.or (some span) }

/-- Records that the failure has left the function `name`. -/
def leaving (fault : Fault) (name : String) : Fault :=
  { fault with unwound := name :: fault.unwound }

/-- The functions that the failure has left, innermost first. -/
def backtrace (fault : Fault) : List String := fault.unwound.reverse

/-- Category and message in one line. -/
def display (fault : Fault) : String :=
  fault.cause.category ++ ": " ++ fault.cause.message

/-- A syntax fault at a known place. -/
def malformed (complaint : Malformed) (span : Span) : Fault :=
  { cause := .malformed complaint, span := some span }

end Fault

end Tern
