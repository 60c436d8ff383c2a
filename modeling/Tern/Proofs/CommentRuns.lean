import Tern.Proofs.Indexing

/-!
# Runs of comments

In front of a token stands a run of comments: line comments, and block comments, each from an
opening mark through the next closing one. Two searches go along that run. One looks for the next
token and takes a comment that does not end for all that is left. The other one is made before
comments are stepped over, and looks for the mark of a comment that does not end. Both follow
the same comments: where the second finds nothing, the first has found what is behind the run.

## Key results

- `Token.exists_commentRun`: tokens begin with a run of comments, behind which none begins that ends
- `Cursor.follow_commentRun`: both searches follow a run of comments
- `Cursor.unclosed?_eq_some_iff`, `Cursor.exists_clears_iff`: what is found, and where stepping ends
- `Scan.arrives_of_clears`: behind a run of comments the cursor stands where the next token was seen
- `Scan.comments_agree`: stepping over comments fails at a comment that does not end, and arrives at
  the next token otherwise
-/

namespace Tern

namespace Token

/-- Comments, one right behind the other. A block comment goes through the next closing mark. -/
inductive CommentRun : List Token → Prop
  | nil : CommentRun []
  | line {token : Token} {text : String} {run : List Token}
      (hkind : token.kind = .lineComment text) (hrun : CommentRun run) : CommentRun (token :: run)
  | block {mark close : Token} {inside run : List Token}
      (hopen : mark.kind = .symbol .commentOpen)
      (hinside : ∀ token ∈ inside, token.kind ≠ .symbol .commentClose)
      (hclose : close.kind = .symbol .commentClose) (hrun : CommentRun run) :
      CommentRun (mark :: (inside ++ close :: run))

/-- The opening mark of a comment, and the tokens behind it, none of which closes the comment. -/
structure Unended (mark : Token) (later : List Token) : Prop where
  opens : mark.kind = .symbol .commentOpen
  stays : ∀ token ∈ later, token.kind ≠ .symbol .commentClose

/-- Tokens begin with a run of comments. Behind it no comment begins, or one that does not end. -/
theorem exists_commentRun (tokens : List Token) :
    ∃ run after, tokens = run ++ after ∧ CommentRun run ∧
      ((∀ token ∈ after.head?, token.kind.isPlain = true) ∨
        ∃ mark later, after = mark :: later ∧ Unended mark later) := by
  -- along the comments in front, up to the first token that begins none, or a mark that stays open
  induction tokens using comments_induction with
  | plain tokens hplain => exact ⟨[], tokens, rfl, .nil, .inl hplain⟩
  | line token text rest hkind ih =>
    obtain ⟨run, after, rfl, hrun, hafter⟩ := ih
    exact ⟨token :: run, after, rfl, .line hkind hrun, hafter⟩
  | block mark inside close rest hopen hinside hclose ih =>
    obtain ⟨run, after, rfl, hrun, hafter⟩ := ih
    exact ⟨mark :: (inside ++ close :: run), after, by simp, .block hopen hinside hclose hrun,
      hafter⟩
  | unended mark later hopen hlater =>
    exact ⟨[], mark :: later, rfl, .nil, .inr ⟨mark, later, rfl, hopen, hlater⟩⟩

end Token

namespace Cursor

open Token (CommentRun Unended)

/-- The comments in front of the cursor run into one that begins with `mark` and does not end. -/
def RunsInto (c : Cursor) (mark : Token) : Prop :=
  ∃ run later, c.rest = run ++ mark :: later ∧ CommentRun run ∧ Unended mark later

/-- Between the two cursors stands a run of comments, and no comment is in front of the second. -/
structure Clears (c : Cursor) (run : List Token) (c' : Cursor) : Prop where
  comments : CommentRun run
  rest_eq : c.rest = run ++ c'.rest
  seen_eq : c'.seen = run.reverse ++ c.seen
  front : c'.atComment = false

/-- Both searches follow a run of comments, and go on behind it. -/
theorem follow_commentRun {c : Cursor} {run after : List Token} (hrun : CommentRun run)
    (hrest : c.rest = run ++ after) :
    c.settle = settle ⟨run.reverse ++ c.seen, after⟩ ∧
      c.unclosed? = unclosed? ⟨run.reverse ++ c.seen, after⟩ := by
  -- comment by comment, each of which is passed in one go
  induction hrun generalizing c with
  | nil =>
    obtain rfl : c.rest = after := hrest
    exact ⟨rfl, rfl⟩
  | @line token text run hkind _ ih =>
    have hrest : c.rest = token :: (run ++ after) := hrest
    obtain ⟨hsettle, hunclosed⟩ := ih (c := ⟨token :: c.seen, run ++ after⟩) rfl
    rw [settle_of_line hrest hkind, unclosed?_of_line hrest hkind, hsettle, hunclosed]
    simp
  | @block mark close inside run hopen hinside hclose _ ih =>
    have hrest : c.rest = mark :: (inside ++ close :: (run ++ after)) := by simpa using hrest
    obtain ⟨hsettle, hunclosed⟩ :=
      ih (c := ⟨close :: (inside.reverse ++ mark :: c.seen), run ++ after⟩) rfl
    rw [settle_of_block hopen hinside hrest hclose, unclosed?_of_block hopen hinside hrest hclose,
      hsettle, hunclosed]
    simp

variable {c c' : Cursor} {mark : Token}

/-- Where the comments run into one that does not end, its mark is found, and no token is left. -/
theorem RunsInto.found (h : c.RunsInto mark) : c.unclosed? = some mark ∧ c.settle.rest = [] := by
  obtain ⟨run, later, hrest, hrun, hopen, hlater⟩ := h
  obtain ⟨hsettle, hunclosed⟩ := follow_commentRun hrun hrest
  rw [hsettle, hunclosed, settle_of_unended hopen hlater rfl,
    unclosed?_of_unended hopen hlater rfl]
  exact ⟨rfl, rfl⟩

/-- Such a comment reaches to the end of the sequence, so that no token is seen. -/
theorem RunsInto.swallowed (h : c.RunsInto mark) :
    Indexed.settled? c.tokens c.position = some c.tokens.length ∧ c.atEnd = true := by
  have hend := h.found.2
  have hposition : c.settle.position = c.tokens.length := by
    rw [← tokens_settle c, tokens, hend]
    simp [position]
  refine ⟨hposition ▸ Indexed.settled?_eq c, ?_⟩
  rw [atEnd, peek, hend]
  rfl

/-- The mark that is found is the one the comments run into. -/
theorem unclosed?_eq_some_iff : c.unclosed? = some mark ↔ c.RunsInto mark := by
  refine ⟨fun hfound => ?_, fun h => h.found.1⟩
  obtain ⟨run, after, hrest, hrun, hplain | ⟨mark', later, rfl, hunended⟩⟩ :=
    Token.exists_commentRun c.rest
  · -- behind the run nothing is found, so nothing was found in front of it
    have hunclosed := (follow_commentRun hrun hrest).2
    rw [hfound, unclosed?_of_not_atComment (atComment_eq_false_iff.mpr hplain)] at hunclosed
    cases hunclosed
  · have hinto : c.RunsInto mark' := ⟨run, later, hrest, hrun, hunended⟩
    rw [hinto.found.1] at hfound
    cases hfound
    exact hinto

/-- Where a run of comments is all that is in front, the cursor goes behind it. -/
theorem Clears.settle_eq {run : List Token} (h : c.Clears run c') :
    c.unclosed? = none ∧ c.settle = c' := by
  obtain ⟨hsettle, hunclosed⟩ := follow_commentRun h.comments h.rest_eq
  rw [← h.seen_eq] at hsettle hunclosed
  exact ⟨hunclosed.trans (unclosed?_of_not_atComment h.front),
    hsettle.trans (settle_of_atComment h.front)⟩

/-- Comments that end are a run of comments, and the cursor goes behind it. -/
theorem exists_clears_iff : (∃ run, c.Clears run c') ↔ c.unclosed? = none ∧ c.settle = c' := by
  refine ⟨fun ⟨run, h⟩ => h.settle_eq, ?_⟩
  rintro ⟨hunclosed, rfl⟩
  -- what stops the comments is a plain token or the mark of a comment that does not end
  obtain ⟨run, after, hrest, hrun, hplain | ⟨mark, later, rfl, hunended⟩⟩ :=
    Token.exists_commentRun c.rest
  · have hclears : c.Clears run ⟨run.reverse ++ c.seen, after⟩ :=
      ⟨hrun, hrest, rfl, atComment_eq_false_iff.mpr hplain⟩
    exact ⟨run, hclears.settle_eq.2 ▸ hclears⟩
  · have hinto : c.RunsInto mark := ⟨run, later, hrest, hrun, hunended⟩
    rw [hinto.found.1] at hunclosed
    cases hunclosed

end Cursor

namespace Scan

/-- The cursor `c'` stands where the next token is seen from `c`, or at the end if there is none: at
that very position, with the token itself in front of it, and with nothing left to step over. It has
moved if a comment was in front. -/
structure Arrives (c c' : Cursor) : Prop where
  position : Indexed.settled? c.tokens c.position = some c'.position
  token : c.tokens[c'.position]? = c.peek
  front : c'.front = c'.peek
  peek : c'.peek = c.peek
  atEnd : c'.atEnd = c.atEnd
  again : comments c' = .ok () c'
  stays : c' = c ↔ c.atComment = false

variable {c c' : Cursor}

/-- Stepping over comments succeeds where all of them end. -/
theorem comments_eq_ok_iff : comments c = .ok () c' ↔ c.unclosed? = none ∧ c.settle = c' := by
  cases hopen : c.unclosed? with
  | none => simp [comments_of_closed hopen]
  | some mark => simp [comments_of_unclosed hopen]

/-- Stepping over comments fails where one is found that does not end, and leaves the cursor. -/
theorem comments_eq_error_iff {fault : Fault} :
    comments c = .error fault c' ↔
      ∃ mark, c.unclosed? = some mark ∧ fault = .malformed .unclosedComment mark.span ∧ c' = c := by
  cases hopen : c.unclosed? with
  | none => simp [comments_of_closed hopen]
  | some mark => simp [comments_of_unclosed hopen, eq_comm]

/-- Behind a run of comments the cursor stands where the next token was seen. -/
theorem arrives_of_clears {run : List Token} (h : c.Clears run c') : Arrives c c' := by
  obtain ⟨-, hsettle⟩ := h.settle_eq
  -- nothing is left to be passed where they end
  have hstays : c'.settle = c' := Cursor.settle_of_atComment h.front
  have hpeek : c'.peek = c.peek := by
    rw [Cursor.peek, hstays, ← hsettle]
    rfl
  exact {
    position := hsettle ▸ Indexed.settled?_eq c
    token := hsettle ▸ Indexed.getElem?_settled c
    front := by rw [Cursor.peek, hstays]; rfl
    peek := hpeek
    atEnd := by rw [Cursor.atEnd, hpeek]; rfl
    again := comments_eq_ok_iff.mpr ⟨Cursor.unclosed?_of_not_atComment h.front, hstays⟩
    stays := by
      refine ⟨fun hsame => hsame ▸ h.front, fun hat => ?_⟩
      rw [← hsettle, Cursor.settle_of_atComment hat] }

/-- Stepping over comments fails exactly if the comments in front run into one that does not end.
The fault is placed at the mark of that comment, and the cursor has not moved. Otherwise a run of
comments is stepped over, and the cursor stands at the token that was seen before, or at the end.
By position, both searches come to an end without an access that fails. Where a comment does not
end, the one for the next token ends behind all tokens, so that none is seen. -/
theorem comments_agree (c : Cursor) :
    (∀ fault c', comments c = .error fault c' ↔
      ∃ mark, c.RunsInto mark ∧ fault = .malformed .unclosedComment mark.span ∧ c' = c) ∧
    (∀ c', comments c = .ok () c' ↔ ∃ run, c.Clears run c') ∧
    (∀ c', comments c = .ok () c' → Arrives c c') ∧
    (∀ mark, c.RunsInto mark →
      Indexed.settled? c.tokens c.position = some c.tokens.length ∧ c.atEnd = true) ∧
    Indexed.settled? c.tokens c.position = some c.settle.position ∧
      Indexed.unclosed? c.tokens c.position = some c.unclosed? ∧
      Indexed.comments? c.tokens c.position = some (Indexed.ended (comments c)) := by
  have hclears : ∀ c', comments c = .ok () c' ↔ ∃ run, c.Clears run c' := fun c' => by
    rw [comments_eq_ok_iff, Cursor.exists_clears_iff]
  refine ⟨fun fault c' => ?_, hclears, fun c' hok => ?_, fun mark hinto => hinto.swallowed,
    Indexed.settled?_eq c, Indexed.unclosed?_eq c, Indexed.comments?_eq c⟩
  · simp only [comments_eq_error_iff, Cursor.unclosed?_eq_some_iff]
  · obtain ⟨run, h⟩ := (hclears c').mp hok
    exact arrives_of_clears h

/-- A run of line comments and a block comment, with a mark inside that counts for nothing, and a
block comment that does not end behind a line comment. -/
theorem comments_agree_mixed :
    let tokens := tokenize "a // b\n /* /* */ // c\n d"
    let c : Cursor := ⟨tokens.take 1, tokens.drop 1⟩
    let c' : Cursor := ⟨(tokens.take 6).reverse, tokens.drop 6⟩
    let unended := tokenize "// a\n /* b"
    let d := Cursor.start unended
    (comments c = .ok () c' ∧ Indexed.settled? tokens 1 = some 6 ∧ c'.front = c.peek ∧
        c'.atEnd = false ∧ comments c' = .ok () c') ∧
      comments d = .error (.malformed .unclosedComment ⟨6, 8⟩) d ∧
      Indexed.settled? unended 0 = some 3 ∧ d.atEnd = true := by
  intro tokens c c' unended d
  -- what the cursors are was computed; that it is so in general was proved
  obtain ⟨hclosed, hsettle, hmore⟩ : c.unclosed? = none ∧ c.settle = c' ∧ c.atEnd = false := by
    decide +kernel
  have hc : comments c = .ok () c' := comments_eq_ok_iff.mpr ⟨hclosed, hsettle⟩
  have hd : d.RunsInto ⟨.symbol .commentOpen, ⟨6, 8⟩⟩ :=
    Cursor.unclosed?_eq_some_iff.mp (by decide +kernel)
  obtain ⟨-, -, hok, -⟩ := comments_agree c
  obtain ⟨herror, -, -, hunended, -⟩ := comments_agree d
  have harrives := hok c' hc
  obtain ⟨hend, hdone⟩ := hunended _ hd
  exact ⟨⟨hc, harrives.position, harrives.front.trans harrives.peek, harrives.atEnd.trans hmore,
    harrives.again⟩,
    (herror _ _).mpr ⟨_, hd, rfl, rfl⟩, hend, hdone⟩

end Scan

end Tern
