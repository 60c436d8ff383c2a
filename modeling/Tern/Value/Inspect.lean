import Tern.Text.Quoted
import Tern.Value.Basic

/-!
# Values for the eyes of a programmer

Where `Value.display` writes what a program prints, `Value.inspect` also shows what kind of value
it is, and every character of a text.
-/

namespace Tern

/-- The value with its kind. -/
def Value.inspect : Value → String
  | number n => "Number(" ++ n.text ++ ")"
  | text s => "Text(" ++ Text.quoted s ++ ")"
  | boolean b => "Boolean(" ++ (if b then "true" else "false") ++ ")"
  | function f => "Function(" ++ f.name ++ ")"
  | void => "Void"

/-- Several values, in brackets. -/
def Value.inspectList (values : List Value) : String :=
  "[" ++ ", ".intercalate (values.map inspect) ++ "]"

/-- The size of a body, or how a routine takes its arguments. -/
def Body.inspect : Body → String
  | tokens block => "Tokens(" ++ toString block.length ++ " tokens)"
  | native _ variadic =>
    "Native \x7b variadic: " ++ (if variadic then "true" else "false") ++ " \x7d"

end Tern
