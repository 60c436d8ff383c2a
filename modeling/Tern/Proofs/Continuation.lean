import Tern.Proofs.Persistence
import Tern.Proofs.Statement.Shape

/-!
# Statements in front of more statements

A program that has come to its end without a `return` is continued by tokens that are added to it,
unless the first of them carries the last statement on: its statements are executed as before, and
then those that were added, in the session that the program has left.

The induction is on fuel and goes statement by statement. What an unfinished comment at the very
end would do to the tokens behind it does not matter, since a program with such a comment fails.

## Key results

- `Construct.Spans.reads`: a construct takes up one token at least
- `Phrase.statements_cases`: what statements that came to the end have done
- `Phrase.statements_extend`: statements are executed, and then those that were added
-/

namespace Tern

open Cursor (Reads)

/-! ### The tokens of a construct -/

namespace Cursor

/-- The second cursor is reached from the first one by reading. -/
private def Reaches (c c' : Cursor) : Prop := ∃ kinds, Reads c kinds c'

private theorem Reaches.trans {c c₁ c' : Cursor} (h : Reaches c c₁) (h' : Reaches c₁ c') :
    Reaches c c' := by
  obtain ⟨kinds, hkinds⟩ := h
  obtain ⟨more, hmore⟩ := h'
  exact ⟨kinds ++ more, hkinds.append hmore⟩

end Cursor

/-- A construct takes up one token at least. -/
theorem Construct.Spans.reads {construct : Construct} {c c' : Cursor} (h : construct.Spans c c') :
    ∃ kind kinds, Reads c (kind :: kinds) c' := by
  -- most constructs begin with a keyword, and what is behind it is reached somehow
  have hbehind : ∀ {c c₁ c' : Cursor} {kind : Kind}, Reads c [kind] c₁ → c₁.Reaches c' →
      ∃ kind kinds, Reads c (kind :: kinds) c' := by
    rintro c c₁ c' kind hkind ⟨kinds, hkinds⟩
    exact ⟨kind, kinds, hkind.append hkinds⟩
  have hone : ∀ {c c' : Cursor} {kind : Kind}, Reads c [kind] c' → c.Reaches c' :=
    fun hkind => ⟨_, hkind⟩
  have htree : ∀ {c c' : Cursor} {t : Tree .expression}, Tree.Parses .whole c t c' → c.Reaches c' :=
    fun ht => ⟨_, ht.reads⟩
  have hskip : ∀ {c c' : Cursor}, Scan.skipBlock c = .ok () c' → c.Reaches c' :=
    fun hblock => Scan.Moves.skipBlock hblock
  cases h with
  | assertion h ht => exact hbehind h (htree ht)
  | counted h ht hbrace hblock =>
    exact hbehind h ((htree ht).trans ((hone hbrace).trans (hskip hblock)))
  | whileLoop h huntil hblock =>
    exact hbehind h (.trans (Scan.Moves.untilBrace _ huntil) (hskip hblock))
  | range h ht hto hu hbrace hblock =>
    refine hbehind h ((htree ht).trans ((hone hto).trans ((htree hu).trans ?_)))
    exact (hone hbrace).trans (hskip hblock)
  | rangeNamed h ht hto hu hwith hname hbrace hblock =>
    refine hbehind h ((htree ht).trans ((hone hto).trans ((htree hu).trans ?_)))
    refine (hone hwith).trans (.trans (Scan.Moves.expecting _ _ hname) ?_)
    exact (hone hbrace).trans (hskip hblock)
  -- the condition of the first arm and its block, and then the other arms
  | conditional h harms =>
    obtain ⟨_, c₂, huntil, harms⟩ := ok_of_bind harms
    obtain ⟨_, c₃, hblock, harms⟩ := ok_of_bind harms
    refine hbehind h (.trans (Scan.Moves.untilBrace _ huntil) ((hskip hblock).trans ?_))
    exact Scan.Moves.skipArms harms
  | variableDeclaration _ h hname htype hequal ht =>
    refine hbehind h (.trans (Scan.Moves.expecting _ _ hname) (.trans (Scan.Moves.typed htype) ?_))
    exact (hone hequal).trans (htree ht)
  | functionDeclaration h hname hopen hparameters htype hbrace hblock =>
    refine hbehind h (.trans (Scan.Moves.expecting _ _ hname) ((hone hopen).trans ?_))
    refine .trans (Scan.Moves.parameters hparameters) (.trans (Scan.Moves.typed htype) ?_)
    exact (hone hbrace).trans (hskip hblock)
  -- an expression has a first token of its own
  | expression ht =>
    rename_i t
    have hreads := ht.reads
    obtain ⟨kind, hhead, -⟩ := t.exists_head
    obtain ⟨kinds, hkinds⟩ := List.head?_eq_some_iff.mp hhead
    rw [hkinds] at hreads
    exact ⟨kind, _, hreads⟩

namespace Reading

variable {self : Evaluator} {fuel : Nat} {c c' : Cursor} {s s' : Session}

/-- Statements go on behind one that is done. -/
theorem statements_of_done {token : Token} (hfront : c.front = some token)
    (hbrace : token.kind ≠ .symbol .rightBrace) (hreturn : token.kind ≠ .keyword .returnKw)
    {paced : Bool}
    (hdone : firstOf self fuel Construct.chain c (paused paced s) = .ok (.done, c') s') :
    statements self fuel paced c s = self (.statements true) c' s' := by
  have hlocated : locate token.span (firstOf self fuel Construct.chain) c (paused paced s) =
      .ok (.done, c') s' := locate_eq_ok_iff.mpr hdone
  rw [statements_of_front hfront hbrace hreturn, dispatched, bind_of_eq_ok hlocated]

/-- A statement that is done has read a token or a comment. If the comments behind it end, those
in front of it have ended. -/
private theorem moves_of_done {n fuel : Nat} {token : Token} (hfront : c.front = some token)
    (hdone : firstOf (Phrase.run n) fuel Construct.chain c s = .ok (.done, c') s') :
    c'.rest.length < c.rest.length ∧ (c'.Closed → c.Closed) := by
  have hlands := lands_dispatch n fuel c s _ c' s' hdone rfl
  -- what is done is a construct or a run of comments
  cases hat : c.atComment with
  | false =>
    simp only [hat, Bool.false_eq_true, if_false] at hlands
    obtain ⟨construct, hspans⟩ := hlands
    obtain ⟨kind, kinds, hreads⟩ := hspans.reads
    have hlength := hreads.length_rest
    rw [List.length_cons] at hlength
    -- a construct has one token at least
    exact ⟨by omega, fun hc' => hc'.reads_of hreads⟩
  | true =>
    simp only [hat, if_true] at hlands
    subst hlands
    -- of a comment at least the mark in front is passed
    obtain ⟨rest, hrest⟩ := List.head?_eq_some_iff.mp hfront
    have hlength := (Cursor.suffix_settle_of_atComment hat).length_le
    rw [hrest, List.tail_cons] at hlength
    refine ⟨by rw [hrest, List.length_cons]; omega, fun hc' => ?_⟩
    -- a comment that does not end would have been a fault
    cases hopen : c.unclosed? with
    | none =>
      unfold Cursor.Closed at hc'
      rwa [Cursor.bare_rest_settle hopen] at hc'
    | some mark =>
      have hfirst : firstOf (Phrase.run n) fuel Construct.chain c =
          throw (.fault (.malformed .unclosedComment mark.span)) := by
        show (comment c >>= _) = _
        rw [comment_of_unclosed hat hopen]
        rfl
      rw [hfirst] at hdone
      cases hdone

section

variable {tail : List Token} (htail : Token.StartAnew tail) (n : Nat)

include htail

/-- Constructs that are offered the tokens in turn. -/
private theorem firstOf_persists (fuel : Nat) {constructs : List Construct}
    (hne : ∀ construct ∈ constructs, construct ≠ .comment) (hc : c.Closed)
    (hmore : c.ahead ≠ none) : Persists tail (firstOf (Phrase.run n) fuel constructs) c := by
  induction constructs with
  | nil => exact .pure hc _
  | cons construct others ih =>
    have hfirst := hne construct (by simp)
    refine .landing ((Phrase.persistent htail n).attempt htail hc fuel hfirst hmore)
      (covers_attempt n fuel hfirst c) fun outcome c₁ hc₁ hcovers => ?_
    -- what is declined leaves the cursor, so the next handler finds the same tokens
    cases outcome with
    | declined =>
      obtain rfl := hcovers.1 rfl
      exact ih fun k hk => hne k (by simp [hk])
    | done => exact .pure hc₁ _
    | returned value => exact .pure hc₁ _

/-- A statement does the same in front of more tokens. -/
private theorem dispatch_persists (fuel : Nat) (hc : c.Closed) {token : Token}
    (hfront : c.front = some token) :
    Persists tail (firstOf (Phrase.run n) fuel Construct.chain) c := by
  have hfront' := Cursor.front_extend hfront tail
  have hat' : (c.extend tail).atComment = c.atComment := by
    rw [Cursor.atComment, Cursor.atComment, hfront, hfront']
  intro s outcome c' s' hx
  cases hat : c.atComment with
  | false =>
    have hmore : c.ahead ≠ none := by
      rw [Cursor.ahead, Cursor.next?_of_front hfront hat]
      exact Option.some_ne_none _
    rw [firstOf_of_not_atComment hat] at hx
    rw [firstOf_of_not_atComment (hat'.trans hat)]
    exact firstOf_persists htail n fuel (by decide) hc hmore s outcome c' s' hx
  | true =>
    -- comments are the first construct, and it is done with them
    have hfirst : ∀ {d : Cursor}, d.atComment = true → d.unclosed? = none →
        firstOf (Phrase.run n) fuel Construct.chain d = pure (.done, d.settle) := by
      intro d hat hopen
      show (comment >>= _) d = _
      rw [bind_of_pure (comment_of_closed hat hopen)]
      rfl
    rw [hfirst hat hc.unclosed?] at hx
    cases hx
    rw [hfirst (hat'.trans hat) (Cursor.unclosed?_extend htail hc), Cursor.settle_extend htail hc]
    exact ⟨rfl, hc.settle⟩

end

end Reading

namespace Phrase

variable {fuel : Nat} {paced : Bool} {c c' : Cursor} {s s' : Session}

/-- What statements that came to the end without a `return` have done: nothing, if there were no
tokens, and otherwise the first statement and then the others. -/
theorem statements_cases (h : run fuel (.statements paced) c s = .ok (none, c') s') :
    ∃ k, fuel = k + 1 ∧ ((c.rest = [] ∧ c' = c ∧ s' = s) ∨
      ∃ token c₁ s₁, c.front = some token ∧ token.kind ≠ .symbol .rightBrace ∧
        token.kind ≠ .keyword .returnKw ∧
        Reading.firstOf (run k) k Construct.chain c (Reading.paused paced s) =
          .ok (.done, c₁) s₁ ∧
        run k (.statements true) c₁ s₁ = .ok (none, c') s') := by
  -- without fuel there would be a fault
  cases fuel with
  | zero => cases h
  | succ k =>
    refine ⟨k, rfl, ?_⟩
    rw [run_succ, rule] at h
    -- the list has ended, which takes nothing
    cases hfront : c.front with
    | none =>
      rw [Reading.statements_of_none hfront] at h
      cases h
      exact .inl ⟨List.head?_eq_none_iff.mp hfront, rfl, rfl⟩
    | some token =>
      by_cases hbrace : token.kind = .symbol .rightBrace
      · rw [Reading.statements_of_brace hfront hbrace] at h
        cases h
      by_cases hreturn : token.kind = .keyword .returnKw
      · rw [Reading.statements_of_return hfront hreturn, map_eq_pure_bind] at h
        obtain ⟨value, c₁, s₁, -, h⟩ := Reading.eq_ok_of_bind h
        cases h
      rw [Reading.statements_of_front hfront hbrace hreturn] at h
      -- to decline would be a fault, and to return would give a value
      obtain ⟨outcome, c₁, s₁, hlocated, h⟩ := Reading.eq_ok_of_bind h
      cases outcome with
      | declined => cases h
      | returned value => cases h
      | done =>
        exact .inr ⟨token, c₁, s₁, rfl, hbrace, hreturn, Reading.locate_eq_ok_iff.mp hlocated, h⟩

/-- Where statements come to the end, the comments among them do. -/
private theorem closed_of_statements (h : run fuel (.statements paced) c s = .ok (none, c') s') :
    c.Closed := by
  induction fuel generalizing paced c s with
  | zero => cases h
  | succ fuel ih =>
    obtain ⟨k, hk, hcases⟩ := statements_cases h
    obtain rfl : fuel = k := by omega
    obtain ⟨hrest, -, -⟩ | ⟨token, c₁, s₁, hfront, -, -, hdone, hothers⟩ := hcases
    · simp [Cursor.Closed, hrest]
    · exact (Reading.moves_of_done hfront hdone).2 (ih hothers)

/-- Statements that come to the end without a `return` do so in front of more tokens as well; then
the statements that were added are executed. Each statement that is done takes a unit of fuel, and
there are no more of them than tokens. -/
theorem statements_extend {tail : List Token} (htail : Token.StartAnew tail)
    (h : run fuel (.statements paced) c s = .ok (none, c') s') :
    ∃ left paced', fuel ≤ left + c.rest.length ∧
      run fuel (.statements paced) (c.extend tail) s =
        run left (.statements paced') ⟨c'.seen, tail⟩ s' := by
  -- on fuel, with one statement in each step
  induction fuel generalizing paced c s with
  | zero => cases h
  | succ fuel ih =>
    have hc := closed_of_statements h
    obtain ⟨k, hk, hcases⟩ := statements_cases h
    obtain rfl : fuel = k := by omega
    obtain ⟨hrest, rfl, rfl⟩ | ⟨token, c₁, s₁, hfront, hbrace, hreturn, hdone, hothers⟩ := hcases
    -- the tokens end here, so the others begin with the fuel that is left
    · refine ⟨fuel + 1, paced, by omega, ?_⟩
      rw [Cursor.extend, hrest, List.nil_append]
    -- the statement is read the same where more tokens follow it
    · have hfront' := Cursor.front_extend hfront tail
      obtain ⟨hdone', -⟩ := Reading.dispatch_persists htail fuel fuel hc hfront _ _ _ _ hdone
      obtain ⟨hlength, -⟩ := Reading.moves_of_done hfront hdone
      obtain ⟨left, paced', hfuel, hsame⟩ := ih hothers
      refine ⟨left, paced', by omega, ?_⟩
      rw [run_succ, rule, Reading.statements_of_done hfront' hbrace hreturn hdone', hsame]

end Phrase

end Tern
