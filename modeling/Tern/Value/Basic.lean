import Tern.Token.Basic

/-!
# Values

A value is a number, a text, a truth value, a function, or `void`, the absence of one. Functions
are values like any other; two of them are equal only if they come from the same declaration,
which is what their `id` tells.
-/

namespace Tern

/-- The types that a declaration can name. `void` has none of them. -/
inductive Ty where
  | number | string | boolean | function
  deriving DecidableEq, Repr

namespace Ty

/-- The name of the type in a program. -/
def name : Ty → String
  | number => "number"
  | string => "string"
  | boolean => "boolean"
  | function => "function"

/-- The type of that name. -/
def ofName? : String → Option Ty
  | "number" => some number
  | "string" => some string
  | "boolean" => some boolean
  | "function" => some function
  | _ => none

end Ty

/-- A parameter of a function; without a type it takes any value. -/
structure Parameter where
  name : String
  type : Option Ty := none
  deriving DecidableEq, Repr

/-- The routines behind functions that are not written in the language. -/
inductive Native where
  /-- Writes its arguments. -/
  | print
  /-- Writes its arguments and ends the line. -/
  | println
  /-- Fails on `void`. -/
  | checkNotNull
  /-- Fails on anything but true. -/
  | checkArgument
  /-- The routine that the host has put into this slot. -/
  | host (slot : Nat)
  deriving DecidableEq, Repr

/-- What happens when a function is called. -/
inductive Body where
  /-- Runs the tokens that stood between the braces of its declaration, comments included. -/
  | tokens (block : List Token)
  /-- Hands the arguments to a routine. If `variadic`, number and types of the arguments are not
  checked. -/
  | native (routine : Native) (variadic : Bool)
  deriving DecidableEq, Repr

/-- A function. -/
structure Callable where
  /-- Different for every function that was ever made. -/
  id : Nat
  name : String
  parameters : List Parameter
  /-- The type given after the parameters. It is kept for readers: what a call returns is not
  checked against it. -/
  returns : Option Ty
  body : Body
  deriving DecidableEq, Repr

/-- Whether a routine stands behind the function. -/
def Callable.isNative (f : Callable) : Bool :=
  match f.body with
  | .tokens _ => false
  | .native .. => true

/-- What an expression evaluates to and a variable holds. -/
inductive Value where
  | number (n : Number)
  | text (s : String)
  | boolean (b : Bool)
  | function (f : Callable)
  /-- The result of a call that returns nothing. -/
  | void
  deriving DecidableEq, Repr

namespace Value

/-- The type of the value; `void` has none. -/
def type? : Value → Option Ty
  | number _ => some .number
  | text _ => some .string
  | boolean _ => some .boolean
  | function _ => some .function
  | void => none

/-- The name of the value's type in messages. -/
def typeName (v : Value) : String :=
  match v.type? with
  | some type => type.name
  | none => "void"

/-- Whether a condition with this value holds: false, zero, the empty text and `void` do not. -/
def isTruthy : Value → Bool
  | number n => n ≠ 0
  | text s => s ≠ ""
  | boolean b => b
  | function _ => true
  | void => false

/-- The number, if the value is one. -/
def number? : Value → Option Number
  | number n => some n
  | _ => none

/-- The truth value, if the value is one. -/
def bool? : Value → Option Bool
  | boolean b => some b
  | _ => none

/-- Equality of the language: values of different types are never equal, and functions are equal
if they are the same one. -/
def equals : Value → Value → Bool
  | number a, number b => a = b
  | text a, text b => a = b
  | boolean a, boolean b => a = b
  | function f, function g => f.id = g.id
  | void, void => true
  | _, _ => false

/-- How two values that have an order compare: numbers by size, texts character by character by
code point. -/
def order? : Value → Value → Option Ordering
  | number a, number b => some (compare a b)
  | text a, text b => some (compare a b)
  | _, _ => none

/-- The value as programs print it. -/
def display : Value → String
  | number n => n.text
  | text s => s
  | boolean b => if b then "true" else "false"
  | function f => "<function " ++ f.name ++ ">"
  | void => "void"

end Value

/-- Whether the value has this type. -/
def Ty.accepts (type : Ty) (value : Value) : Bool :=
  value.type? = some type

end Tern
