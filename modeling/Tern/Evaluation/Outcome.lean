import Tern.Evaluation.Phrase

/-!
# Outcomes

What becomes of the tokens ahead when they are offered to a construct of the language.
-/

namespace Tern

/-- What a construct did with the tokens ahead. -/
inductive Outcome where
  /-- They are not its own, and nothing was read. -/
  | declined
  /-- The statement was executed. -/
  | done
  /-- The statement was executed up to a `return` in it. -/
  | returned (value : Value)
  deriving DecidableEq, Repr

/-- The outcome of a statement whose blocks returned this. -/
def Outcome.ofReturn : Option Value → Outcome
  | some value => returned value
  | none => done

namespace Reading

/-- Reads the rest of a construct if the next token is the keyword it begins with. -/
def after (keyword : Keyword) (rest : Reading Outcome) : Reading Outcome := do
  if ← accept (.keyword keyword) then rest else return .declined

end Reading

end Tern
