import Tern.Token.Basic

/-!
# Reading tokens

The lexical grammar is a list of rules, each the description of a set of lexemes. At every place
the longest lexeme of any rule is taken; among rules with equally long ones the earlier rule wins,
so a keyword is never read as a name. Blanks separate tokens and are dropped.

Reading never fails. Where no rule applies, an `unknown` token takes over: the rest of the line if
a quote stands there (a string that is not closed), one character otherwise. A number that does
not fit is unknown as a whole.

Block comments are not special here: what stands between their marks is read as ordinary tokens.
-/

namespace Tern

/-- Characters that only separate tokens. -/
def isBlank (c : Char) : Bool :=
  c = ' ' || c = '\t' || c = '\r' || c = '\n' || c = '\x0c'

/-- A decimal digit. -/
def isDigit (c : Char) : Bool := '0' ≤ c && c ≤ '9'

/-- A character that a name may begin with: an ASCII letter or the underscore. -/
def startsIdent (c : Char) : Bool :=
  ('a' ≤ c && c ≤ 'z') || ('A' ≤ c && c ≤ 'Z') || c = '_'

/-- A character that a name may go on with. -/
def continuesIdent (c : Char) : Bool := startsIdent c || isDigit c

/-- The natural number that the decimal digits spell. -/
def decimalValue (digits : List Char) : Nat :=
  digits.foldl (fun value c => 10 * value + (c.toNat - '0'.toNat)) 0

/-- A lexical rule. -/
inductive Rule where
  /-- One fixed spelling. -/
  | fixed (spelling : List Char) (kind : Kind)
  /-- Two slashes and everything up to the end of the line. -/
  | lineComment
  /-- Anything between two quotes of one line. -/
  | str
  /-- Digits, then optionally a point and more digits. -/
  | number
  /-- A letter or underscore, then letters, underscores and digits. -/
  | ident
  deriving DecidableEq, Repr

namespace Rule

/-- The rules of the language, those that win ties first. -/
def all : List Rule :=
  .lineComment ::
    Symbol.all.map (fun mark => .fixed mark.text.toList (.symbol mark)) ++
    Keyword.all.map (fun word => .fixed word.text.toList (.keyword word)) ++
    [.str, .number, .ident]

/-- Length of the longest lexeme of the rule that `input` begins with; zero if there is none. -/
def reach (input : List Char) : Rule → Nat
  | fixed spelling _ => if spelling.isPrefixOf input then spelling.length else 0
  | lineComment =>
    match input with
    | '/' :: '/' :: rest => 2 + (rest.takeWhile (· != '\n')).length
    | _ => 0
  | str =>
    match input with
    | '"' :: rest =>
      let inside := (rest.takeWhile fun c => c != '"' && c != '\n').length
      if (rest.drop inside).head? = some '"' then inside + 2 else 0
    | _ => 0
  | number =>
    let whole := (input.takeWhile isDigit).length
    match input.drop whole with
    | '.' :: rest =>
      let fraction := (rest.takeWhile isDigit).length
      if 0 < whole && 0 < fraction then whole + 1 + fraction else whole
    | _ => whole
  | ident =>
    match input with
    | c :: rest => if startsIdent c then 1 + (rest.takeWhile continuesIdent).length else 0
    | [] => 0

/-- The token that a lexeme of the rule stands for. -/
def kind (lexeme : List Char) : Rule → Kind
  | fixed _ kind => kind
  | lineComment => .lineComment (String.ofList (lexeme.drop 2))
  | str => .str (String.ofList (lexeme.drop 1).dropLast)
  | number =>
    -- What stands behind the point does not count.
    (Number.ofInt? (decimalValue (lexeme.takeWhile isDigit))).elim
      (.unknown (String.ofList lexeme)) .number
  | ident => .ident (String.ofList lexeme)

/-- The rule whose lexeme at the front of `input` is longest, with that length; the earliest of
several. -/
def longest (input : List Char) : List Rule → Option (Rule × Nat)
  | [] => none
  | rule :: rules =>
    let length := rule.reach input
    match longest input rules with
    | some (other, otherLength) =>
      if length < otherLength then some (other, otherLength) else some (rule, length)
    | none => if 0 < length then some (rule, length) else none

end Rule

/-- How many characters of `input` are unknown together where no rule applies. -/
def unknownReach : List Char → Nat
  | '"' :: rest => 1 + (rest.takeWhile (· != '\n')).length
  | _ => 1

/-- The first token of `input`, which begins with no blank, and its number of characters. -/
def readKind (input : List Char) : Kind × Nat :=
  match Rule.longest input Rule.all with
  | some (rule, length) => (rule.kind (input.take length), length)
  | none =>
    let length := unknownReach input
    (.unknown (String.ofList (input.take length)), length)

namespace Token

/-- Reads the tokens of `input`, whose first character stands at byte `offset`. The first `skip`
characters belong to the token read last; the tokens read so far are in `found`, newest first. -/
def scan : (input : List Char) → (offset skip : Nat) → (found : List Token) → List Token
  | [], _, _, found => found.reverse
  | c :: rest, offset, skip + 1, found => scan rest (offset + c.utf8Size) skip found
  | c :: rest, offset, 0, found =>
    if isBlank c then
      scan rest (offset + c.utf8Size) 0 found
    else
      let (kind, length) := readKind (c :: rest)
      let span := Span.between offset (offset + utf8Width ((c :: rest).take length))
      -- `c` is stepped over here, the rest of the lexeme in the rounds that follow.
      scan rest (offset + c.utf8Size) (length - 1) (⟨kind, span⟩ :: found)

/-- What has been found stays in front of what is found later. -/
theorem scan_eq_append (input : List Char) (offset skip : Nat) (found : List Token) :
    scan input offset skip found = found.reverse ++ scan input offset skip [] := by
  induction input generalizing offset skip found with
  | nil => simp [scan]
  | cons c rest ih =>
    cases skip with
    | succ skip => simp only [scan]; exact ih ..
    | zero =>
      simp only [scan]
      split
      · exact ih ..
      · rw [ih, ih _ _ [_]]
        simp

/-- Characters of a token that was read already are passed over. -/
theorem scan_skip (lexeme rest : List Char) (offset : Nat) (found : List Token) :
    scan (lexeme ++ rest) offset lexeme.length found =
      scan rest (offset + utf8Width lexeme) 0 found := by
  induction lexeme generalizing offset with
  | nil => simp
  | cons c lexeme ih =>
    simp only [List.cons_append, List.length_cons, scan, ih, utf8Width_cons]
    congr 1
    omega

end Token

/-- The tokens of a source text, in order, each with its place. -/
def tokenize (source : String) : List Token :=
  Token.scan source.toList 0 0 []

end Tern
