import Tern.Proofs.Scanning

/-!
# Cursors as positions

A cursor can be kept as a number into a token sequence that stays as it is. Comments are then
stepped over by jumping behind the next closing mark, and a block is cut out between two
positions. This file carries out the search for the end of a block in that way, with every access
checked: a part of the sequence that is not there, or a number below zero, gives nothing at all.

Two searches jump over comments. One of them looks for the next token outside comments, and ends
behind all tokens where a comment does not end; the other one looks for just such a comment.

## Key results

- `Indexed.settled?_eq`, `Indexed.next?_eq`: a step by position is a step of the cursor
- `Indexed.unclosed?_eq`, `Indexed.comments?_eq`: a comment that does not end is found by position
- `Indexed.block?_eq`: a block is found by position as the cursor finds it, and no access fails
-/

namespace Tern

open Cursor (Reads)

namespace Indexed

/-! ### Checked accesses -/

/-- The tokens from `start` on in front of `stop`, if these are bounds of a part of the sequence. -/
def slice? (tokens : List Token) (start stop : Nat) : Option (List Token) :=
  if start ≤ stop ∧ stop ≤ tokens.length then some ((tokens.take stop).drop start) else none

/-- The number before, if there is one. -/
def pred? : Nat → Option Nat
  | 0 => none
  | n + 1 => some n

@[simp] theorem pred?_succ (n : Nat) : pred? (n + 1) = some n := rfl

/-- The position behind a closing mark is further on than that of the comment. -/
private theorem lt_behind (position inside : Nat) : position < position + inside + 2 := by
  omega

/-- Where the search for the next token outside comments goes on behind the comment that begins at a
position: behind the closing mark, or at the end if there is none. It goes forward. -/
def behindComment? (tokens : List Token) (position : Nat) (hlt : position < tokens.length) :
    Option { next : Nat // position < next } := do
  let ahead ← slice? tokens (position + 1) tokens.length
  match ahead.findIdx? (·.kind = .symbol .commentClose) with
  | some inside => return ⟨position + inside + 2, lt_behind position inside⟩
  | none => return ⟨tokens.length, hlt⟩

/-- The position of the first token outside comments, from a position on. -/
def settled? (tokens : List Token) (position : Nat) : Option Nat :=
  if hlt : position < tokens.length then
    match tokens[position].kind with
    | .lineComment _ => settled? tokens (position + 1)
    | .symbol .commentOpen =>
      match behindComment? tokens position hlt with
      | none => none
      | some next => settled? tokens next.val
    | _ => some position
  else
    some position
termination_by tokens.length - position
decreasing_by
  -- a comment takes one token at least, so fewer are left
  · omega
  · have := next.property
    omega

/-- The opening mark of a block comment that does not end, if the comments from a position on run
into one. -/
def unclosed? (tokens : List Token) (position : Nat) : Option (Option Token) :=
  if hlt : position < tokens.length then
    match tokens[position].kind with
    | .lineComment _ => unclosed? tokens (position + 1)
    | .symbol .commentOpen =>
      match slice? tokens (position + 1) tokens.length with
      | none => none
      -- the end of the comment is searched from behind its mark
      | some ahead =>
        match ahead.findIdx? (·.kind = .symbol .commentClose) with
        | some inside => unclosed? tokens (position + inside + 2)
        | none => some tokens[position]
    | _ => some none
  else
    some none
termination_by tokens.length - position

/-- Steps over comments from a position on, and gives the position behind them. Where they do not
end, the position stays. -/
def comments? (tokens : List Token) (position : Nat) : Option (Except Fault Unit × Nat) := do
  match ← unclosed? tokens position with
  | some mark => return (.error (.malformed .unclosedComment mark.span), position)
  | none => return (.ok (), ← settled? tokens position)

/-- The next token outside comments and the position behind it, or the same position if there is
none. -/
def next? (tokens : List Token) (position : Nat) : Option (Option Token × Nat) := do
  let settled ← settled? tokens position
  match tokens[settled]? with
  | some token => return (some token, settled + 1)
  | none => return (none, position)

/-- The place of the next token outside comments, or the end of the last token of all. -/
def here? (tokens : List Token) (position : Nat) : Option Span := do
  match tokens[← settled? tokens position]? with
  | some token => return token.span
  | none =>
    match tokens.getLast? with
    | some token => return Span.point token.span.stop
    | none => return Span.point 0

/-- Goes on with a block that begins at `start`, from a position behind which `depth` braces are
open, for at most so many steps. Where the block does not end, the place is that of the token in
front of it, if there is one. -/
def collect? (tokens : List Token) (start : Nat) :
    (steps position depth : Nat) → Option (Except Fault (List Token) × Nat)
  | 0, _, _ => none
  | steps + 1, position, depth => do
    match ← next? tokens position with
    | (some token, behind) =>
      if token.kind = .symbol .leftBrace then
        collect? tokens start steps behind (depth + 1)
      else if token.kind = .symbol .rightBrace then
        -- a closing brace takes one level back
        let left ← pred? depth
        if left = 0 then
          return (.ok (← slice? tokens start (← pred? behind)), behind)
        else
          collect? tokens start steps behind left
      else
        collect? tokens start steps behind depth
    | (none, stop) =>
      match (pred? start).bind (tokens[·]?) with
      -- the complaint is about the brace in front of the block, if there is one
      | some opening => return (.error (.malformed .unclosedBlock opening.span), stop)
      | none => return (.error (.malformed .unclosedBlock (← here? tokens stop)), stop)

/-- The tokens of a block from a position behind its opening brace on, and the position behind it.
-/
def block? (tokens : List Token) (position : Nat) : Option (Except Fault (List Token) × Nat) :=
  collect? tokens position (tokens.length + 1) position 1

/-! ### Steps of a cursor -/

/-- The token at the position of a cursor is the one in front of it. -/
private theorem getElem?_position (c : Cursor) : c.tokens[c.position]? = c.rest.head? := by
  rw [Cursor.tokens, Cursor.position, List.getElem?_append_right (by simp)]
  simp [List.head?_eq_getElem?]

/-- There is no closing mark among tokens none of which is one. -/
private theorem findIdx?_unended {later : List Token}
    (hlater : ∀ token ∈ later, token.kind ≠ .symbol .commentClose) :
    later.findIdx? (·.kind = .symbol .commentClose) = none := by
  simpa [List.findIdx?_eq_none_iff] using hlater

/-- The first closing mark among tokens. -/
private theorem findIdx?_close {inside rest : List Token} {close : Token}
    (hinside : ∀ token ∈ inside, token.kind ≠ .symbol .commentClose)
    (hclose : close.kind = .symbol .commentClose) :
    (inside ++ close :: rest).findIdx? (·.kind = .symbol .commentClose) = some inside.length := by
  simp [List.findIdx?_append, List.findIdx?_cons, findIdx?_unended hinside, hclose]

section

variable {c : Cursor} {token : Token} {rest : List Token} (hrest : c.rest = token :: rest)

include hrest

/-- The front token stands at the position of the cursor. -/
private theorem getElem_position :
    ∃ hlt : c.position < c.tokens.length, c.tokens[c.position] = token := by
  have hfront := getElem?_position c
  rw [hrest] at hfront
  exact List.getElem?_eq_some_iff.mp hfront

/-- The end of the sequence, seen from the front token. -/
private theorem length_tokens_of_cons : c.tokens.length = c.position + rest.length + 1 := by
  simp [Cursor.tokens, Cursor.position, hrest, Nat.add_assoc]

/-- The part from behind the front token on. -/
private theorem slice?_behind :
    slice? c.tokens (c.position + 1) c.tokens.length = some rest := by
  have hbounds : c.position + 1 ≤ c.tokens.length := by
    rw [length_tokens_of_cons hrest]
    omega
  rw [slice?, if_pos ⟨hbounds, Nat.le_refl _⟩, List.take_length, Cursor.tokens, Cursor.position,
    hrest, List.drop_append]
  simp

/-- The position behind the comment that is in front of a cursor. -/
private theorem behindComment?_eq (hlt : c.position < c.tokens.length) :
    (behindComment? c.tokens c.position hlt).map Subtype.val =
      match rest.findIdx? (·.kind = .symbol .commentClose) with
      | some inside => some (c.position + inside + 2)
      | none => some c.tokens.length := by
  unfold behindComment?
  rw [slice?_behind hrest]
  simp only [Option.bind_eq_bind, Option.bind_some]
  split <;> rfl

end

/-- A token in front that begins no comment, by position. -/
private theorem isPlain_getElem {c : Cursor}
    (hplain : ∀ token ∈ c.rest.head?, token.kind.isPlain = true)
    (hlt : c.position < c.tokens.length) : c.tokens[c.position].kind.isPlain = true := by
  refine hplain _ ?_
  rw [← getElem?_position c, List.getElem?_eq_getElem hlt]
  rfl

/-- Behind a line comment the cursor stands one position further on in the same sequence. -/
private theorem tokens_behind_line {c : Cursor} {token : Token} {rest : List Token}
    (hrest : c.rest = token :: rest) : Cursor.tokens ⟨token :: c.seen, rest⟩ = c.tokens := by
  simp [Cursor.tokens, hrest]

section

variable {c : Cursor} {mark close : Token} {inside rest : List Token}

/-- Behind a block comment the cursor stands in the same sequence. -/
private theorem tokens_behind_block (hrest : c.rest = mark :: (inside ++ close :: rest)) :
    Cursor.tokens ⟨close :: (inside.reverse ++ mark :: c.seen), rest⟩ = c.tokens := by
  simp [Cursor.tokens, hrest]

/-- The position behind a block comment. -/
private theorem position_behind_block :
    Cursor.position ⟨close :: (inside.reverse ++ mark :: c.seen), rest⟩ =
      c.position + inside.length + 2 := by
  simp only [Cursor.position, List.length_cons, List.length_append, List.length_reverse]
  omega

end

/-- Stepping over comments by position. -/
theorem settled?_eq (c : Cursor) : settled? c.tokens c.position = some c.settle.position := by
  -- both searches go from comment to comment
  induction hrest : c.rest using Token.comments_induction generalizing c with
  | plain tokens hplain =>
    subst hrest
    rw [Cursor.settle_of_atComment (Cursor.atComment_eq_false_iff.mpr hplain), settled?]
    -- no comment is in front, and both stay
    split
    · rename_i hlt
      obtain ⟨hline, hopen⟩ := Kind.isPlain_iff.mp (isPlain_getElem hplain hlt)
      split
      · rename_i hkind
        exact absurd hkind (hline _)
      · rename_i hkind
        exact absurd hkind hopen
      · rfl
    · rfl
  | line token text rest hkind ih =>
    obtain ⟨hlt, htoken⟩ := getElem_position hrest
    have hnext := ih ⟨token :: c.seen, rest⟩ rfl
    rw [tokens_behind_line hrest] at hnext
    -- a line comment is one token
    rw [settled?, dif_pos hlt, htoken, hkind, Cursor.settle_of_line hrest hkind]
    exact hnext
  | block mark inside close rest hopen hinside hclose ih =>
    obtain ⟨hlt, htoken⟩ := getElem_position hrest
    have hnext := ih ⟨close :: (inside.reverse ++ mark :: c.seen), rest⟩ rfl
    have hbehind := behindComment?_eq hrest hlt
    rw [findIdx?_close hinside hclose] at hbehind
    obtain ⟨next, hbehind, hval⟩ := Option.map_eq_some_iff.mp hbehind
    rw [tokens_behind_block hrest, position_behind_block] at hnext
    -- a block comment ends behind its closing mark
    rw [settled?, dif_pos hlt, htoken, hopen, Cursor.settle_of_block hopen hinside hrest hclose]
    simp only [hbehind, hval, hnext]
  | unended mark later hopen hlater =>
    obtain ⟨hlt, htoken⟩ := getElem_position hrest
    have hbehind := behindComment?_eq hrest hlt
    rw [findIdx?_unended hlater] at hbehind
    obtain ⟨next, hbehind, hval⟩ := Option.map_eq_some_iff.mp hbehind
    have hposition : Cursor.position ⟨later.reverse ++ mark :: c.seen, []⟩ = c.tokens.length := by
      rw [length_tokens_of_cons hrest]
      simp [Cursor.position, Nat.add_assoc, Nat.add_comm later.length]
    rw [settled?, dif_pos hlt, htoken, hopen, Cursor.settle_of_unended hopen hlater hrest,
      hposition]
    -- the search goes on behind all tokens, and ends there
    simp only [hbehind, hval]
    rw [settled?, dif_neg (Nat.lt_irrefl _)]

/-- Looking for a comment that does not end by position. -/
theorem unclosed?_eq (c : Cursor) : unclosed? c.tokens c.position = some c.unclosed? := by
  -- both searches go from comment to comment
  induction hrest : c.rest using Token.comments_induction generalizing c with
  | plain tokens hplain =>
    subst hrest
    have hnone : c.unclosed? = none :=
      Cursor.unclosed?_of_not_atComment (Cursor.atComment_eq_false_iff.mpr hplain)
    -- no comment is in front, so none is open
    rw [hnone, unclosed?]
    split
    · rename_i hlt
      obtain ⟨hline, hopen⟩ := Kind.isPlain_iff.mp (isPlain_getElem hplain hlt)
      split
      · rename_i hkind
        exact absurd hkind (hline _)
      · rename_i hkind
        exact absurd hkind hopen
      · rfl
    · rfl
  | line token text rest hkind ih =>
    obtain ⟨hlt, htoken⟩ := getElem_position hrest
    have hnext := ih ⟨token :: c.seen, rest⟩ rfl
    rw [tokens_behind_line hrest] at hnext
    rw [unclosed?, dif_pos hlt, htoken, hkind, Cursor.unclosed?_of_line hrest hkind]
    exact hnext
  | block mark inside close rest hopen hinside hclose ih =>
    obtain ⟨hlt, htoken⟩ := getElem_position hrest
    have hnext := ih ⟨close :: (inside.reverse ++ mark :: c.seen), rest⟩ rfl
    rw [tokens_behind_block hrest, position_behind_block] at hnext
    -- a block comment that ends is passed as a whole
    rw [unclosed?, dif_pos hlt, htoken, hopen, slice?_behind hrest,
      Cursor.unclosed?_of_block hopen hinside hrest hclose]
    simp only [findIdx?_close hinside hclose, hnext]
  | unended mark later hopen hlater =>
    obtain ⟨hlt, htoken⟩ := getElem_position hrest
    -- one that does not end is what both find
    rw [unclosed?, dif_pos hlt, htoken, hopen, slice?_behind hrest,
      Cursor.unclosed?_of_unended hopen hlater hrest]
    simp only [findIdx?_unended hlater]

/-- Behind the comments ahead the cursor stands in the same sequence. -/
theorem getElem?_settled (c : Cursor) :
    c.tokens[c.settle.position]? = c.settle.rest.head? := by
  rw [← Cursor.tokens_settle c]
  exact getElem?_position c.settle

/-- Stepping over a token by position. -/
theorem next?_eq (c : Cursor) :
    next? c.tokens c.position =
      match c.next? with
      | some (token, c') => some (some token, c'.position)
      | none => some (none, c.position) := by
  have hfront := getElem?_settled c
  unfold next? Cursor.next?
  rw [settled?_eq]
  simp only [Option.bind_eq_bind, Option.bind_some]
  rw [hfront]
  obtain ⟨seen, rest⟩ := c.settle
  cases rest with
  | nil => rfl
  | cons token rest => rfl

/-- The place of the next token by position. -/
theorem here?_eq (c : Cursor) : here? c.tokens c.position = some c.here := by
  -- the place is that of the next token, or of the last one of all
  have hfront := getElem?_settled c
  have hlast : c.tokens.getLast? = c.rest.getLast?.or c.seen.head? := by
    rw [Cursor.tokens, List.getLast?_append, List.getLast?_reverse]
  unfold here? Cursor.here Cursor.peek
  rw [settled?_eq]
  simp only [Option.bind_eq_bind, Option.bind_some]
  rw [hfront, hlast]
  cases c.settle.rest.head? with
  | some token => rfl
  | none =>
    cases c.rest.getLast?.or c.seen.head? with
    | some token => rfl
    | none => rfl

/-- What a scan has given, and the position where it has ended. -/
def ended : EStateM.Result Fault Cursor α → Except Fault α × Nat
  | .ok result c => (.ok result, c.position)
  | .error fault c => (.error fault, c.position)

/-- Comments are stepped over by position as the cursor does it. -/
theorem comments?_eq (c : Cursor) :
    comments? c.tokens c.position = some (ended (Scan.comments c)) := by
  unfold comments?
  rw [unclosed?_eq, settled?_eq]
  cases hopen : c.unclosed? with
  | none =>
    rw [Scan.comments_of_closed hopen]
    rfl
  | some mark =>
    rw [Scan.comments_of_unclosed hopen]
    rfl

/-! ### Blocks -/

/-- The tokens that were passed, without the last one, as a part of the sequence. -/
private theorem slice?_passed {start c : Cursor} {kinds : List Kind} {kind : Kind}
    (h : Reads start (kinds ++ [kind]) c) :
    ∃ stop, pred? c.position = some stop ∧
      slice? start.tokens start.position stop = some (c.passedSince start.position).dropLast := by
  obtain ⟨front, token, hpassed, -, -⟩ := h.passedSince_concat
  have hrest := h.rest_eq
  rw [hpassed] at hrest
  -- the last token that was read stands right in front of the cursor
  have hposition : c.position = start.position + front.length + 1 := by
    have hlength := congrArg List.length h.tokens_eq
    simp only [Cursor.tokens, Cursor.position, List.length_append, List.length_reverse, hrest,
      List.length_singleton] at hlength ⊢
    omega
  refine ⟨start.position + front.length, by rw [hposition]; rfl, ?_⟩
  -- the slice is all that is in front of this token, less what the block began behind
  have htokens : start.tokens = (start.seen.reverse ++ front) ++ token :: c.rest := by
    rw [Cursor.tokens, hrest]
    simp
  have hfront : (start.seen.reverse ++ front).length = start.position + front.length := by
    simp [Cursor.position]
  have hbounds : start.position ≤ start.position + front.length ∧
      start.position + front.length ≤ start.tokens.length := by
    rw [htokens, List.length_append, hfront]
    omega
  rw [slice?, if_pos hbounds, htokens, List.take_left' hfront, hpassed, List.dropLast_concat,
    List.drop_left' (by simp [Cursor.position])]

/-- The token in front of a cursor. -/
private theorem getElem?_behind (c : Cursor) :
    (pred? c.position).bind (c.tokens[·]?) = c.seen.head? := by
  obtain ⟨seen, rest⟩ := c
  cases seen with
  | nil => rfl
  | cons token seen =>
    simp [Cursor.position, Cursor.tokens]

/-- What becomes of a block that begins at `start` once its end was searched for. -/
private def concluded (start : Cursor) (closed : Bool) : Scan (List Token) := do
  if closed then
    Scan.passed start
  else
    let stop ← get
    let span := (start.seen.head?.map (·.span)).getD stop.here
    throw (.malformed .unclosedBlock span)

section

variable {start c : Cursor} {kinds : List Kind} (h : Reads start kinds c)

include h

/-- Where nothing is ahead the block does not end. -/
private theorem collect?_of_none (hc : c.next? = none) (steps depth : Nat) :
    collect? start.tokens start.position (steps + 1) c.position depth =
      some (ended (concluded start false c)) := by
  have hnext := next?_eq c
  -- at the end of the tokens the search stops in both forms
  have hhere := here?_eq c
  rw [h.tokens_eq] at hnext hhere
  rw [hc] at hnext
  rw [collect?, hnext]
  simp only [Option.bind_eq_bind, Option.bind_some, getElem?_behind, hhere]
  unfold concluded
  cases start.seen.head? with
  | none => rfl
  | some opening => rfl

/-- The search for the end of a block by position. -/
private theorem collect?_eq {steps steps' : Nat} (hs : c.rest.length ≤ steps)
    (hs' : c.rest.length ≤ steps') (depth : Nat) :
    collect? start.tokens start.position (steps + 1) c.position (depth + 1) =
      some (ended ((Scan.through (fun depth kind => depth == 0 && kind == .symbol .rightBrace)
        steps' depth >>= concluded start) c)) := by
  -- along the steps; in each one token is read, and the depth is counted the same
  induction steps' generalizing c kinds steps depth with
  | zero =>
    have hc : c.next? = none := by
      cases hc : c.next? with
      | none => rfl
      | some p =>
        have := Cursor.length_rest_of_next? hc
        omega
    rw [collect?_of_none h hc, bind_of_ok (Scan.through_of_none hc _ _ _)]
  | succ steps' ih =>
    -- without a token the block is open
    cases hc : c.next? with
    | none => rw [collect?_of_none h hc, bind_of_ok (Scan.through_of_none hc _ _ _)]
    | some p =>
      obtain ⟨token, c₁⟩ := p
      have hnext := next?_eq c
      rw [h.tokens_eq, hc] at hnext
      have hread : Reads start (kinds ++ [token.kind]) c₁ := h.append (.one hc)
      have hlength := Cursor.length_rest_of_next? hc
      obtain ⟨steps, rfl⟩ : ∃ n, steps = n + 1 := ⟨steps - 1, by omega⟩
      have hmore := fun depth => ih hread (by omega : c₁.rest.length ≤ steps) (by omega) depth
      rw [collect?, hnext, Scan.through, bind_assoc, bind_of_ok (Scan.next_of_some hc)]
      simp only [Option.bind_eq_bind, Option.bind_some]
      -- braces change the depth, all other tokens are passed
      by_cases hl : token.kind = .symbol .leftBrace
      · simpa [hl] using hmore (depth + 1)
      by_cases hr : token.kind = .symbol .rightBrace
      · cases depth with
        | zero =>
          -- the brace closes the block, which is cut out
          obtain ⟨stop, hstop, hslice⟩ := slice?_passed hread
          have hcut : concluded start true c₁ =
              .ok (c₁.passedSince start.position).dropLast c₁ := rfl
          simp [hr, hstop, hslice, hcut, ended]
        | succ depth => simpa [hr] using hmore depth
      · simpa [hl, hr] using hmore depth

end

/-- A block is found by position as the cursor finds it. No part of the sequence that is looked
for is missing on the way, and no more steps are taken than there are tokens. -/
theorem block?_eq (c : Cursor) :
    block? c.tokens c.position = some (ended (Scan.block c)) := by
  have hsteps : c.rest.length ≤ c.tokens.length := by
    simp [Cursor.tokens]
  exact collect?_eq (.nil c) hsteps (Nat.le_refl _) 0

end Indexed

end Tern
