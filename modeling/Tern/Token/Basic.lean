import Tern.Number
import Tern.Span

/-!
# Tokens

The vocabulary of the language: keywords, symbols, literals, names, comments, and text that is
none of these. `Kind.text` writes a token the way a program would contain it.
-/

namespace Tern

/-- Reserved words. -/
inductive Keyword where
  | varKw | valKw | defKw | ifKw | elseKw | fromKw | toKw | withKw
  | whileKw | repeatKw | returnKw | assertKw | trueKw | falseKw
  deriving DecidableEq, Repr

/-- Every reserved word once. -/
def Keyword.all : List Keyword :=
  [.varKw, .valKw, .defKw, .ifKw, .elseKw, .fromKw, .toKw, .withKw,
    .whileKw, .repeatKw, .returnKw, .assertKw, .trueKw, .falseKw]

theorem Keyword.mem_all (word : Keyword) : word ∈ Keyword.all := by
  cases word <;> decide

/-- The spelling of a reserved word. -/
def Keyword.text : Keyword → String
  | varKw => "var"
  | valKw => "val"
  | defKw => "def"
  | ifKw => "if"
  | elseKw => "else"
  | fromKw => "from"
  | toKw => "to"
  | withKw => "with"
  | whileKw => "while"
  | repeatKw => "repeat"
  | returnKw => "return"
  | assertKw => "assert"
  | trueKw => "true"
  | falseKw => "false"

/-- Brackets, separators, operators, and the two marks around a block comment. -/
inductive Symbol where
  | commentOpen | commentClose
  | leftBrace | rightBrace | leftParen | rightParen | comma | colon
  | equalEqual | notEqual | lessEqual | greaterEqual | andAnd | orOr | plusPlus | minusMinus
  | equal | less | greater | plus | minus | star | slash | percent | bang
  deriving DecidableEq, Repr

/-- Every symbol once. -/
def Symbol.all : List Symbol :=
  [.commentOpen, .commentClose,
    .leftBrace, .rightBrace, .leftParen, .rightParen, .comma, .colon,
    .equalEqual, .notEqual, .lessEqual, .greaterEqual, .andAnd, .orOr, .plusPlus, .minusMinus,
    .equal, .less, .greater, .plus, .minus, .star, .slash, .percent, .bang]

theorem Symbol.mem_all (mark : Symbol) : mark ∈ Symbol.all := by
  cases mark <;> decide

/-- The spelling of a symbol. -/
def Symbol.text : Symbol → String
  | commentOpen => "/*"
  | commentClose => "*/"
  | leftBrace => "\x7b"
  | rightBrace => "\x7d"
  | leftParen => "("
  | rightParen => ")"
  | comma => ","
  | colon => ":"
  | equalEqual => "=="
  | notEqual => "!="
  | lessEqual => "<="
  | greaterEqual => ">="
  | andAnd => "&&"
  | orOr => "||"
  | plusPlus => "++"
  | minusMinus => "--"
  | equal => "="
  | less => "<"
  | greater => ">"
  | plus => "+"
  | minus => "-"
  | star => "*"
  | slash => "/"
  | percent => "%"
  | bang => "!"

/-- What a token is, with the payload of literals, names and comments. -/
inductive Kind where
  | keyword (word : Keyword)
  | symbol (mark : Symbol)
  /-- A comment to the end of its line; `text` is what follows the two slashes. -/
  | lineComment (text : String)
  /-- A string literal; `text` is what stands between the quotes. -/
  | str (text : String)
  /-- A numeric literal; a fraction in the source is dropped. -/
  | number (value : Number)
  | ident (name : String)
  /-- Text that is no other token: a stray character, a string that is not closed on its line, a
  number that is too large. -/
  | unknown (text : String)
  deriving DecidableEq, Repr

namespace Kind

/-- The token as source text. -/
def text : Kind → String
  | keyword word => word.text
  | symbol mark => mark.text
  | lineComment text => "//" ++ text
  | str text => "\"" ++ text ++ "\""
  | number value => value.text
  | ident name => name
  | unknown text => text

/-- Whether the token opens or closes a comment, or is one. -/
def isComment : Kind → Bool
  | lineComment _ | symbol .commentOpen | symbol .commentClose => true
  | _ => false

/-- The name, if the token is one. -/
def ident? : Kind → Option String
  | ident name => some name
  | _ => none

end Kind

/-- A token and the place it was read from. -/
structure Token where
  kind : Kind
  span : Span
  deriving DecidableEq, Repr

end Tern
