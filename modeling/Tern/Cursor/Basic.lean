import Tern.Token.Basic

/-!
# Cursors

A cursor is a place in a token sequence: the tokens behind it, newest first, and those ahead.
Comments ahead are stepped over: a line comment, or everything from `/*` through the next `*/`; an
unclosed `/*` swallows the rest. So braces inside a comment never count. A `*/` without an opening
mark is a token like any other.

* `tokens_settle`, `tokens_of_next?`: moving a cursor keeps the sequence it moves in;
* `next?_eq_some_iff`: a step goes over the comments ahead and the token behind them;
* `position_lt_of_next?`: a step goes forward;
* `settle_settle`: behind the comments there are none to step over.
-/

namespace Tern

/-- A place in a token sequence. -/
structure Cursor where
  /-- The tokens behind the cursor, newest first. -/
  seen : List Token := []
  /-- The tokens ahead, comments included. -/
  rest : List Token
  deriving DecidableEq, Repr, Inhabited

namespace Cursor

/-- The cursor in front of all tokens. -/
def start (tokens : List Token) : Cursor := { rest := tokens }

/-- The whole sequence. -/
def tokens (cursor : Cursor) : List Token := cursor.seen.reverse ++ cursor.rest

/-- The number of tokens behind the cursor. -/
def position (cursor : Cursor) : Nat := cursor.seen.length

/-- Steps over comments; `inside` says that a block comment is open. -/
def settleFrom : (inside : Bool) → (seen rest : List Token) → Cursor
  | _, seen, [] => ⟨seen, []⟩
  | true, seen, token :: rest =>
    -- An opening mark in here counts for nothing: block comments do not nest.
    settleFrom (token.kind ≠ .symbol .commentClose) (token :: seen) rest
  | false, seen, ahead@(token :: rest) =>
    match token.kind with
    | .lineComment _ => settleFrom false (token :: seen) rest
    | .symbol .commentOpen => settleFrom true (token :: seen) rest
    | _ => ⟨seen, ahead⟩

/-- The cursor behind the comments that are ahead. -/
def settle (cursor : Cursor) : Cursor := settleFrom false cursor.seen cursor.rest

private theorem tokens_settleFrom (inside : Bool) (seen rest : List Token) :
    (settleFrom inside seen rest).tokens = seen.reverse ++ rest := by
  induction rest generalizing inside seen with
  | nil => cases inside <;> rfl
  | cons token rest ih =>
    cases inside with
    | true => simp [settleFrom, ih]
    | false =>
      simp only [settleFrom]
      split
      · simp [ih]
      · simp [ih]
      · rfl

/-- Stepping over comments keeps the sequence. -/
@[simp] theorem tokens_settle (cursor : Cursor) : cursor.settle.tokens = cursor.tokens :=
  tokens_settleFrom ..

private theorem length_seen_settleFrom (inside : Bool) (seen rest : List Token) :
    seen.length ≤ (settleFrom inside seen rest).seen.length := by
  induction rest generalizing inside seen with
  | nil => cases inside <;> exact Nat.le_refl _
  | cons token rest ih =>
    have step : ∀ b, seen.length ≤ (settleFrom b (token :: seen) rest).seen.length := fun b =>
      Nat.le_trans (Nat.le_succ _) (ih b (token :: seen))
    cases inside with
    | true => exact step _
    | false =>
      simp only [settleFrom]
      split
      · exact step _
      · exact step _
      · exact Nat.le_refl _

/-- Stepping over comments never goes back. -/
theorem position_le_settle (cursor : Cursor) : cursor.position ≤ cursor.settle.position :=
  length_seen_settleFrom ..

private theorem settleFrom_settleFrom (inside : Bool) (seen rest : List Token) :
    (settleFrom inside seen rest).settle = settleFrom inside seen rest := by
  induction rest generalizing inside seen with
  | nil => cases inside <;> rfl
  | cons token rest ih =>
    cases inside with
    | true => simp only [settleFrom, ih]
    | false =>
      simp only [settleFrom]
      split
      · exact ih ..
      · exact ih ..
      · rename_i notLine notOpen
        simp only [settle, settleFrom]

/-- Behind the comments ahead there are none to step over. -/
@[simp] theorem settle_settle (cursor : Cursor) : cursor.settle.settle = cursor.settle :=
  settleFrom_settleFrom ..

/-- The next token that is not part of a comment. -/
def peek (cursor : Cursor) : Option Token := cursor.settle.rest.head?

/-- The next token, even if it is part of a comment. -/
def front (cursor : Cursor) : Option Token := cursor.rest.head?

/-- Whether nothing but comments is ahead. -/
def atEnd (cursor : Cursor) : Bool := cursor.peek.isNone

/-- Whether the next token outside comments is of this kind. -/
def isAt (cursor : Cursor) (kind : Kind) : Bool :=
  match cursor.peek with
  | some token => token.kind = kind
  | none => false

/-- The next token outside comments, and the cursor behind it. -/
def next? (cursor : Cursor) : Option (Token × Cursor) :=
  match cursor.settle with
  | ⟨seen, token :: rest⟩ => some (token, ⟨token :: seen, rest⟩)
  | ⟨_, []⟩ => none

/-- The next token is in front behind the comments ahead. -/
theorem next?_eq_some_iff {cursor after : Cursor} {token : Token} :
    cursor.next? = some (token, after) ↔
      ∃ seen rest, cursor.settle = ⟨seen, token :: rest⟩ ∧ after = ⟨token :: seen, rest⟩ := by
  constructor
  · intro h
    unfold next? at h
    split at h
    · rename_i seen _ rest hs
      cases h
      exact ⟨seen, rest, hs, rfl⟩
    · cases h
  · rintro ⟨seen, rest, hs, rfl⟩
    rw [next?, hs]

/-- Without a next token nothing is left behind the comments ahead. -/
theorem next?_eq_none_iff {cursor : Cursor} : cursor.next? = none ↔ cursor.settle.rest = [] := by
  unfold next?
  split
  · rename_i hs
    simp [hs]
  · rename_i hs
    simp [hs]

/-- Stepping over a token keeps the sequence. -/
theorem tokens_of_next? {cursor after : Cursor} {token : Token}
    (h : cursor.next? = some (token, after)) : after.tokens = cursor.tokens := by
  obtain ⟨seen, rest, hs, rfl⟩ := next?_eq_some_iff.mp h
  rw [← tokens_settle cursor, hs]
  simp [tokens]

/-- Stepping over a token goes forward. -/
theorem position_lt_of_next? {cursor after : Cursor} {token : Token}
    (h : cursor.next? = some (token, after)) : cursor.position < after.position := by
  obtain ⟨seen, rest, hs, rfl⟩ := next?_eq_some_iff.mp h
  have := position_le_settle cursor
  rw [hs] at this
  exact Nat.lt_succ_of_le this

/-- The token that is stepped over is the one that was next. -/
theorem peek_of_next? {cursor after : Cursor} {token : Token}
    (h : cursor.next? = some (token, after)) : cursor.peek = some token := by
  obtain ⟨seen, rest, hs, rfl⟩ := next?_eq_some_iff.mp h
  simp [peek, hs]

/-- The place of the next token outside comments, or the end of the last token of all. -/
def here (cursor : Cursor) : Span :=
  match cursor.peek with
  | some token => token.span
  | none =>
    match cursor.rest.getLast?.or cursor.seen.head? with
    | some token => Span.point token.span.stop
    | none => Span.point 0

/-- The tokens between position `start` and the cursor. -/
def passedSince (cursor : Cursor) (start : Nat) : List Token :=
  (cursor.seen.take (cursor.position - start)).reverse

/-- The opening mark of a block comment that does not end, if the comments ahead run into one;
`opened` is the mark of the block comment that is open. -/
def unclosedFrom : (opened : Option Token) → List Token → Option Token
  | opened, [] => opened
  | some mark, token :: rest =>
    unclosedFrom (if token.kind = .symbol .commentClose then none else some mark) rest
  | none, token :: rest =>
    match token.kind with
    | .lineComment _ => unclosedFrom none rest
    | .symbol .commentOpen => unclosedFrom (some token) rest
    | _ => none

/-- The opening mark of a block comment that does not end, if the comments ahead run into one. -/
def unclosed? (cursor : Cursor) : Option Token := unclosedFrom none cursor.rest

end Cursor

end Tern
