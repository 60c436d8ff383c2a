import Tern.Text.Unprintable

/-!
# Quoted text

A text is quoted for a reader who has to see every character of it: quotes and backslashes are
escaped, common control characters have short names, and any other character that would not show
is written by its code point.
-/

namespace Tern.Text

/-- The character inside quotes. -/
def quotedChar : Char → String
  | '\x00' => "\\0"
  | '\t' => "\\t"
  | '\r' => "\\r"
  | '\n' => "\\n"
  | '"' => "\\\""
  | '\\' => "\\\\"
  | c =>
    if isUnprintable c then "\\u\x7b" ++ String.ofList (Nat.toDigits 16 c.toNat) ++ "\x7d"
    else c.toString

/-- The text between quotes, with escapes. -/
def quoted (text : String) : String :=
  "\"" ++ String.join (text.toList.map quotedChar) ++ "\""

end Tern.Text
