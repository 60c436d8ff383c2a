import Tern.Token.Lexer

/-!
# Normal form of a program text

A program is put into normal form by dropping its comments and writing the remaining tokens with
one space between them. A comment is a line comment, or everything from `/*` up to the next `*/`;
an unclosed `/*` makes a comment of all that follows, and a `*/` without an opening mark is
dropped as well.
-/

namespace Tern

namespace Token

/-- The tokens outside comments; `inside` says that a block comment is open at the front. -/
def keptFrom : (inside : Bool) → List Token → List Token
  | _, [] => []
  | true, token :: rest => keptFrom (token.kind ≠ .symbol .commentClose) rest
  | false, token :: rest =>
    if token.kind = .symbol .commentOpen then keptFrom true rest
    else if token.kind.isComment then keptFrom false rest
    else token :: keptFrom false rest

/-- The tokens that are not part of a comment. -/
def kept (tokens : List Token) : List Token := keptFrom false tokens

end Token

/-- The texts one behind the other, each set off by a space from what is written already. As long as
nothing is, there is no space, so empty texts in front leave no trace. -/
def spaced (texts : List String) : String :=
  texts.foldl (fun written text => if written.isEmpty then text else written ++ " " ++ text) ""

/-- What is written already stays in front. -/
private theorem foldl_spaced {written : String} (hne : written ≠ "") (texts : List String) :
    texts.foldl (fun written text => if written.isEmpty then text else written ++ " " ++ text)
      written = " ".intercalate (written :: texts) := by
  induction texts generalizing written with
  | nil => simp
  | cons text texts ih =>
    have hempty : written.isEmpty = false := by simpa using hne
    rw [List.foldl_cons, hempty, if_neg Bool.false_ne_true, ih (by simp [String.append_assoc]),
      String.intercalate_cons_append, String.intercalate_cons_cons]

/-- If no text is empty, there is one space between neighbours. -/
theorem spaced_eq_intercalate {texts : List String} (h : ∀ text ∈ texts, text ≠ "") :
    spaced texts = " ".intercalate texts := by
  cases texts with
  | nil => rfl
  | cons text texts => exact foldl_spaced (h text (by simp)) texts

/-- The tokens as source text: without comments, a space between neighbours. -/
def normalize (tokens : List Token) : String :=
  spaced ((Token.kept tokens).map (·.kind.text))

end Tern
