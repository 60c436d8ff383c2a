import Tern.Proofs.Continuation

/-!
# Constructs decline at once or go forward

A construct that is offered the tokens ahead looks at the next one. It declines then and there,
with cursor and session as they were, or the tokens are its own, and whatever becomes of the
statement, the cursor ends further on. So a statement is offered to one construct after the other
at the same place, and there are no more statements than tokens.

## Key results

- `Reading.Decides`: what is asked of a construct, and `Reading.decides_attempt`: all of them do so
- `Reading.firstChecked_eq`: no construct moves the cursor and declines
- `Phrase.tallied`: statements with a count of those that are offered, and `Phrase.tally_le`
- `Reading.attempt_contract`: the three together
-/

namespace Tern

open Cursor (Reads)

/-! ### Going forward -/

namespace Cursor

/-- The second cursor stands further on in the same sequence. -/
structure Before (c c' : Cursor) : Prop where
  tokens : c'.tokens = c.tokens
  position : c.position < c'.position

variable {c c' : Cursor}

/-- The sequence is made of what is behind the cursor and what is ahead. -/
theorem length_tokens (c : Cursor) : c.tokens.length = c.position + c.rest.length := by
  simp [tokens, position]

/-- Behind a token that was read, the cursor stands further on. -/
theorem Reads.before {kind : Kind} {kinds : List Kind} (h : Reads c (kind :: kinds) c') :
    c.Before c' := by
  refine ⟨h.tokens_eq, ?_⟩
  have htokens := congrArg List.length h.tokens_eq
  have hrest := h.length_rest
  rw [length_tokens, length_tokens] at htokens
  rw [List.length_cons] at hrest
  omega

/-- Behind a comment, the cursor stands further on. -/
theorem before_settle (hat : c.atComment = true) : c.Before c.settle := by
  refine ⟨c.tokens_settle, ?_⟩
  have htokens := congrArg List.length c.tokens_settle
  have hrest := (suffix_settle_of_atComment hat).length_le
  -- the tokens are the same ones, and fewer of them are left
  rw [length_tokens, length_tokens] at htokens
  cases hahead : c.rest with
  | nil => simp [atComment, front, hahead] at hat
  | cons token rest =>
    rw [hahead] at hrest htokens
    simp only [List.tail_cons, List.length_cons] at hrest htokens
    omega

/-- Further on, less is ahead. -/
theorem Before.length_rest (h : c.Before c') : c'.rest.length < c.rest.length := by
  have htokens := congrArg List.length h.tokens
  have hposition := h.position
  rw [length_tokens, length_tokens] at htokens
  omega

/-- A cursor stands in its sequence or at its end. -/
theorem Before.position_le (h : c.Before c') : c'.position ≤ c.tokens.length := by
  rw [← h.tokens, length_tokens]
  omega

end Cursor

namespace Reading

/-! ### Readings that move along -/

/-- Where the reading succeeds it has read token by token. -/
def Moves (x : Reading α) : Prop := ∀ c, Lands x c fun _ c' => ∃ kinds, Reads c kinds c'

/-- Where the reading succeeds it has read token by token, and it never declines. -/
def Commits (x : Reading Outcome) : Prop :=
  ∀ c, Lands x c fun outcome c' => outcome ≠ .declined ∧ ∃ kinds, Reads c kinds c'

namespace Moves

protected theorem pure (a : α) : Moves (pure a) := fun c => .pure ⟨[], .nil c⟩

/-- Readings in sequence. -/
protected theorem bind {x : Reading α} {f : α → Reading β} (h : Moves x) (hf : ∀ a, Moves (f a)) :
    Moves (x >>= f) := by
  intro c
  refine .bind ((h c).mono fun a c₁ ⟨kinds, hkinds⟩ => (hf a c₁).mono fun b c' ⟨more, hmore⟩ => ?_)
  exact ⟨kinds ++ more, hkinds.append hmore⟩

/-- Changing the result. -/
theorem map {x : Reading α} {f : α → β} (h : Moves x) : Moves (f <$> x) := fun c => .map (h c)

theorem raiseAt (span : Span) (cause : Cause) : Moves (Reading.raiseAt span cause : Reading α) :=
  fun _ => .raiseAt

/-- Adding places to faults changes nothing for a reading that succeeds. -/
theorem locate {x : Reading α} (h : Moves x) (span : Span) : Moves (Reading.locate span x) :=
  fun c => (h c).locate

theorem scan {x : Scan α} (h : x.Moves) : Moves (Reading.scan x) :=
  fun _ => .scan fun _ _ hx => h hx

theorem accept (kind : Kind) : Moves (Reading.accept kind) := scan (.accept kind)

theorem expect (kind : Kind) (what : String) : Moves (Reading.expect kind what) :=
  .bind (scan (.expecting ..)) fun _ => .pure ()

/-- An evaluation that reads nothing. -/
theorem lift (x : Eval α) : Moves (liftM x) := fun c => .lift fun _ => ⟨[], .nil c⟩

theorem here : Moves Reading.here := fun c => .here ⟨[], .nil c⟩

protected theorem get : Moves (MonadState.get : Reading Cursor) := fun c => .get ⟨[], .nil c⟩

variable {self : Evaluator} (hsound : Sound self)

include hsound

theorem expression : Moves (self .expression) :=
  fun c => (hsound.expression c).mono fun _ _ ⟨_, ht⟩ => ⟨_, ht.reads⟩

/-- A bound of a loop. -/
theorem bound : Moves (Reading.bound self) := by
  refine .bind here fun span => .bind (expression hsound) fun value => ?_
  split
  · exact .pure _
  · exact raiseAt _ _

/-- The arms of a conditional, however many are stepped over. -/
theorem armsRule (harms : Moves (self .arms)) : Moves (Reading.arms self) := by
  -- every part of the rule moves the cursor forward or leaves it where it is
  refine .bind (expression hsound) fun condition => .bind (expect _ _) fun _ => ?_
  split
  · refine .bind (scan .block) fun body => .bind (lift _) fun returned => ?_
    cases returned with
    | some value => exact .pure _
    | none => exact .bind (scan .skipArms) fun _ => .pure _
  · refine .bind (scan .skipBlock) fun _ => .bind (accept _) fun another => ?_
    split
    · refine .bind (accept _) fun condition => ?_
      split
      · exact harms
      · exact .bind (expect _ _) fun _ => .bind (scan .block) fun body => lift _
    · exact .pure _

end Moves

end Reading

/-- The arms of a conditional, with whatever fuel. -/
theorem Phrase.moves_arms (fuel : Nat) : Reading.Moves (run fuel .arms) := by
  induction fuel with
  | zero => exact fun _ => .throw
  | succ fuel ih => exact .armsRule (sound fuel) ih

namespace Reading

namespace Commits

variable {self : Evaluator}

protected theorem pure {outcome : Outcome} (h : outcome ≠ .declined) : Commits (pure outcome) :=
  fun c => .pure ⟨h, [], .nil c⟩

/-- A reading that moves along, and then one that does not decline. -/
protected theorem bind {x : Reading α} {f : α → Reading Outcome} (h : Moves x)
    (hf : ∀ a, Commits (f a)) : Commits (x >>= f) := by
  intro c
  refine .bind ((h c).mono fun a c₁ ⟨kinds, hkinds⟩ => (hf a c₁).mono ?_)
  rintro outcome c' ⟨hne, more, hmore⟩
  exact ⟨hne, kinds ++ more, hkinds.append hmore⟩

theorem raiseAt (span : Span) (cause : Cause) : Commits (Reading.raiseAt span cause) :=
  fun _ => .raiseAt

/-- A loop whose rounds do not decline. -/
theorem iterate {body : Nat → Eval (Option Outcome)} {atEnd : Eval Outcome}
    (hbody : ∀ i, (body i).Yields fun result => ∀ outcome, result = some outcome →
      outcome ≠ .declined) (hend : atEnd.Yields (· ≠ .declined)) (index count : Nat) :
    Commits (liftM (Eval.iterate body atEnd index count)) :=
  fun c => .lift_of_yields (.iterate hbody hend index count) fun _ hne => ⟨hne, [], .nil c⟩

end Commits

/-! ### Constructs -/

/-- What is asked of a construct: it declines at once, with cursor and session as they were, or it
does not decline, and ends further on. -/
def Decides (x : Reading Outcome) : Prop :=
  ∀ c, x c = pure (.declined, c) ∨
    Lands x c fun outcome c' => outcome ≠ .declined ∧ c.Before c'

namespace Decides

/-- Behind a keyword that is next, it is too late to decline. -/
private theorem of_keyword {x y : Reading Outcome} {c c₁ : Cursor} {keyword : Keyword}
    (hkeyword : Reads c [.keyword keyword] c₁) (hx : x c = y c₁) (hy : Commits y) :
    Lands x c fun outcome c' => outcome ≠ .declined ∧ c.Before c' := by
  intro s outcome c' s' h
  rw [hx] at h
  obtain ⟨hne, kinds, hkinds⟩ := hy c₁ s outcome c' s' h
  exact ⟨hne, (hkeyword.append hkinds).before⟩

/-- A construct that begins with a keyword. -/
theorem after {keyword : Keyword} {x : Reading Outcome} (hx : Commits x) :
    Decides (Reading.after keyword x) := by
  intro c
  by_cases hahead : c.ahead = some (.keyword keyword)
  · obtain ⟨c₁, hkeyword⟩ := Cursor.reads_of_ahead hahead
    exact .inr (of_keyword hkeyword (bind_of_pure (accept_of_reads hkeyword)) hx)
  · exact .inl (bind_of_pure (accept_of_ne hahead))

theorem comment : Decides Reading.comment := by
  intro c
  -- the handler declines where no comment is in front, and passes it elsewhere
  cases hat : c.atComment with
  | false => exact .inl (comment_of_not_atComment hat)
  | true =>
    -- it cannot be done with a comment that does not end
    refine .inr fun s outcome c' s' h => ?_
    cases hopen : c.unclosed? with
    | none =>
      rw [comment_of_closed hat hopen] at h
      cases h
      exact ⟨nofun, Cursor.before_settle hat⟩
    | some mark =>
      rw [comment_of_unclosed hat hopen] at h
      cases h

theorem whileLoop (self : Evaluator) (fuel : Nat) : Decides (Reading.whileLoop self fuel) := by
  refine after (.bind (.scan (.untilBrace _)) fun condition => .bind (.scan .block) fun body => ?_)
  refine .iterate (fun _ => .bind fun holds => ?_) .throw _ _
  split
  · exact yields_round
  · refine .pure fun outcome h => ?_
    cases h
    nofun

theorem functionDeclaration : Decides Reading.functionDeclaration := by
  refine after (.bind .here fun span => .bind (.scan (.expecting ..)) fun name => ?_)
  refine .bind (.expect _ _) fun _ => .bind (.scan .parameters) fun parameters => ?_
  refine .bind (.scan .typed) fun returns => .bind (.expect _ _) fun _ => ?_
  exact .bind (.scan .block) fun body => .bind (.locate (.lift _) _) fun _ => .pure nofun

theorem conditional {self : Evaluator} (harms : Moves (self .arms)) :
    Decides (Reading.conditional self) := by
  refine after (.bind harms fun returned => .pure ?_)
  cases returned with
  | some value => nofun
  | none => nofun

section

variable {self : Evaluator} (hsound : Sound self)

include hsound

theorem assertion : Decides (Reading.assertion self) := by
  refine after (.bind .get fun start => .bind (.expression hsound) fun value => ?_)
  split
  · exact .pure nofun
  · exact .bind .get fun _ => .raiseAt _ _

theorem counted : Decides (Reading.counted self) := by
  refine after (.bind (.bound hsound) fun count => .bind (.expect _ _) fun _ => ?_)
  exact .bind (.scan .block) fun body =>
    .iterate (fun _ => yields_round) (.pure (by simp)) _ _

theorem range : Decides (Reading.range self) := by
  refine after (.bind (.bound hsound) fun first => .bind (.expect _ _) fun _ => ?_)
  refine .bind (.bound hsound) fun limit => .bind (.accept _) fun named => ?_
  split
  · refine .bind (.map (.scan (.expecting ..))) fun name? => .bind (.expect _ _) fun _ => ?_
    exact .bind (.scan .block) fun body =>
      .iterate (fun _ => yields_round) (.pure (by simp)) _ _
  · refine .bind (.pure none) fun name? => .bind (.expect _ _) fun _ => ?_
    exact .bind (.scan .block) fun body =>
      .iterate (fun _ => yields_round) (.pure (by simp)) _ _

theorem variableDeclaration : Decides (Reading.variableDeclaration self) := by
  -- behind the keyword it does not decline any more
  have hdeclared : ∀ isFinal, Commits (declared self isFinal) := by
    intro isFinal
    refine .bind .here fun span => .bind (.scan (.expecting ..)) fun name => ?_
    refine .bind (.scan .typed) fun type => .bind (.expect _ _) fun _ => ?_
    exact .bind (.expression hsound) fun value => .bind (.locate (.lift _) _) fun _ => .pure nofun
  intro c
  by_cases hahead : c.ahead = some (.keyword .varKw)
  · obtain ⟨c₁, hkeyword⟩ := Cursor.reads_of_ahead hahead
    exact .inr (of_keyword hkeyword (bind_of_pure (accept_of_reads hkeyword)) (hdeclared false))
  · -- without `var` the construct is the one for `val`
    have hval : Reading.variableDeclaration self c = Reading.after .valKw (declared self true) c :=
      bind_of_pure (accept_of_ne hahead)
    unfold Lands
    rw [hval]
    exact after (hdeclared true) c

theorem expressionStatement : Decides (Reading.expressionStatement self) := by
  intro c
  -- it declines unless the token in front begins an expression
  cases hpeek : c.peek with
  | none =>
    refine .inl ?_
    unfold Reading.expressionStatement
    rw [peek_bind, hpeek]
    rfl
  | some token =>
    by_cases hstarts : token.kind.startsExpression = true
    -- a token that begins an expression is read, or the expression fails
    · refine .inr (.bind (.peek ?_))
      rw [hpeek]
      simp only [hstarts, if_true]
      refine .bind ((hsound.expression c).mono fun value c' ⟨t, ht⟩ => .pure ?_)
      obtain ⟨kind, kinds, hreads⟩ := (Construct.Spans.expression ht).reads
      exact ⟨nofun, hreads.before⟩
    · refine .inl ?_
      unfold Reading.expressionStatement
      rw [peek_bind, hpeek]
      simp only [hstarts]
      rfl

end

end Decides

/-- Every construct declines at once or goes forward. -/
theorem decides_attempt (n fuel : Nat) (construct : Construct) :
    Decides (attempt (Phrase.run n) fuel construct) := by
  have hsound := Phrase.sound n
  -- each handler with the lemma about it
  cases construct with
  | comment => exact .comment
  | assertion => exact .assertion hsound
  | counted => exact .counted hsound
  | whileLoop => exact .whileLoop _ fuel
  | range => exact .range hsound
  | conditional => exact .conditional (Phrase.moves_arms n)
  | variableDeclaration => exact .variableDeclaration hsound
  | functionDeclaration => exact .functionDeclaration
  | expression => exact .expressionStatement hsound

/-! ### Offers in turn -/

/-- Offering the tokens to constructs in turn comes down to one of them, or none. -/
theorem decides_firstOf (n fuel : Nat) (constructs : List Construct) :
    Decides (firstOf (Phrase.run n) fuel constructs) := by
  -- along the handlers, until one does not decline
  induction constructs with
  | nil => exact fun _ => .inl rfl
  | cons construct others ih =>
    intro c
    rcases decides_attempt n fuel construct c with hdeclined | hcommitted
    · have hothers : firstOf (Phrase.run n) fuel (construct :: others) c =
          firstOf (Phrase.run n) fuel others c := bind_of_pure hdeclined
      unfold Lands
      rw [hothers]
      exact ih c
    · refine .inr (.bind (hcommitted.mono fun outcome c' hbefore => ?_))
      cases outcome with
      | declined => exact absurd rfl hbefore.1
      | done => exact .pure hbefore
      | returned value => exact .pure hbefore

/-- Offers the tokens ahead to the constructs in turn, and looks each time one declines whether the
cursor is where it was before. Gives nothing if it is not. -/
def firstChecked (self : Evaluator) (fuel : Nat) : List Construct → Reading (Option Outcome)
  | [] => return some .declined
  | construct :: others => do
    let start ← get
    match ← attempt self fuel construct with
    | .declined =>
      if (← get).position = start.position then firstChecked self fuel others else return none
    | outcome => return some outcome

/-- Looking at the cursor each time makes no difference. -/
theorem firstChecked_eq (n fuel : Nat) (constructs : List Construct) :
    firstChecked (Phrase.run n) fuel constructs =
      some <$> firstOf (Phrase.run n) fuel constructs := by
  -- handler by handler, where the check compares the positions before and after
  induction constructs with
  | nil => rfl
  | cons construct others ih =>
    funext c s
    rw [firstChecked, cursor_bind, map_eq_pure_bind, firstOf, bind_assoc]
    -- a construct that declines has not moved, and one that has moved does not decline
    rcases decides_attempt n fuel construct c with hdeclined | hcommitted
    · rw [bind_of_pure hdeclined, bind_of_pure hdeclined]
      show (if c.position = c.position then firstChecked (Phrase.run n) fuel others
        else return none) c s = (firstOf (Phrase.run n) fuel others >>= fun a => pure (some a)) c s
      rw [if_pos rfl, ih, map_eq_pure_bind]
    · cases hattempt : attempt (Phrase.run n) fuel construct c s with
      | error halt s' => rw [bind_of_eq_error hattempt, bind_of_eq_error hattempt]
      | ok result s' =>
        obtain ⟨outcome, c'⟩ := result
        rw [bind_of_eq_ok hattempt, bind_of_eq_ok hattempt]
        cases outcome with
        | declined => exact absurd rfl (hcommitted s _ c' s' hattempt).1
        | done => rfl
        | returned value => rfl

end Reading

namespace Phrase

/-! ### Statements in a row -/

/-- Executes statements by their rule, and counts those that are offered to the constructs. -/
def tallied : (fuel : Nat) → (paced : Bool) → Cursor → Session →
    Nat × EStateM.Result Halt Session (Option Value × Cursor)
  | 0, _, _, s => (0, .error .outOfFuel s)
  | fuel + 1, paced, c, s =>
    match c.front with
    | none => (0, .ok (none, c) s)
    | some token =>
      match token.kind with
      | .symbol .rightBrace =>
        (0, Reading.raiseAt token.span (.malformed .unmatchedBrace) c s)
      | .keyword .returnKw => (0, (some <$> Reading.returned (run fuel) token.span) c s)
      | kind =>
        let offered := Reading.firstOf (run fuel) fuel Construct.chain
        match Reading.locate token.span offered c (Reading.paused paced s) with
        | .error halt s' => (1, .error halt s')
        | .ok (.declined, c') s' =>
          (1, Reading.raiseAt token.span (.unknownToken kind.text) c' s')
        | .ok (.returned value, c') s' => (1, .ok (some value, c') s')
        | .ok (.done, c') s' =>
          let (others, result) := tallied fuel true c' s'
          (others + 1, result)

/-- Counting the statements makes no difference. -/
theorem tallied_eq (fuel : Nat) (paced : Bool) (c : Cursor) (s : Session) :
    (tallied fuel paced c s).2 = run fuel (.statements paced) c s := by
  -- on fuel, statement by statement, as the evaluation itself goes on
  induction fuel generalizing paced c s with
  | zero => rfl
  | succ fuel ih =>
    rw [run_succ, rule, tallied]
    cases hfront : c.front with
    | none =>
      rw [Reading.statements_of_none hfront]
      rfl
    | some token =>
      simp only
      split
      -- a brace, a `return`, or a statement that is offered to the handlers
      · rename_i hkind
        rw [Reading.statements_of_brace hfront hkind]
      · rename_i hkind
        rw [Reading.statements_of_return hfront hkind]
      · rename_i hbrace hreturn
        rw [Reading.statements_of_front hfront hbrace hreturn, Reading.dispatched]
        -- the statement is a fault, declined, ended by a `return`, or done
        split
        · rename_i hoffered
          rw [Reading.bind_of_eq_error hoffered]
        · rename_i hoffered
          rw [Reading.bind_of_eq_ok hoffered]
        · rename_i hoffered
          rw [Reading.bind_of_eq_ok hoffered]
          rfl
        · rename_i hoffered
          rw [Reading.bind_of_eq_ok hoffered]
          exact ih ..

/-- No more statements are offered than there are tokens ahead. -/
theorem tally_le (fuel : Nat) (paced : Bool) (c : Cursor) (s : Session) :
    (tallied fuel paced c s).1 ≤ c.rest.length := by
  -- on fuel; every statement that is done leaves fewer tokens
  induction fuel generalizing paced c s with
  | zero => exact Nat.zero_le _
  | succ fuel ih =>
    rw [tallied]
    cases hfront : c.front with
    | none => exact Nat.zero_le _
    | some token =>
      obtain ⟨others, hrest⟩ := List.head?_eq_some_iff.mp hfront
      have hone : 1 ≤ c.rest.length := by simp [hrest]
      simp only
      split
      · exact Nat.zero_le _
      · exact Nat.zero_le _
      · split
        · exact hone
        · exact hone
        · exact hone
        · -- the statement has taken up a token at least, and the others have the rest
          rename_i c' s' hoffered
          have hdone := Reading.locate_eq_ok_iff.mp hoffered
          have hbefore : c.Before c' := by
            rcases Reading.decides_firstOf fuel fuel Construct.chain c with hdeclined | hcommitted
            · rw [hdeclined] at hdone
              cases hdone
            · exact (hcommitted _ _ c' s' hdone).2
          have hlater := ih true c' s'
          have hlength := hbefore.length_rest
          simp only
          omega

end Phrase

/-- The contract of constructs. A construct that declines has left the cursor and the session as
they were; otherwise the cursor stands further on in the same tokens. So nothing is found by
looking at the cursor after each construct that declines, and no more statements are offered to
the constructs than there are tokens. -/
theorem Reading.attempt_contract (n fuel : Nat) :
    (∀ construct c s outcome c' s',
        attempt (Phrase.run n) fuel construct c s = .ok (outcome, c') s' →
        (outcome = .declined → c' = c ∧ s' = s) ∧
        (outcome ≠ .declined → c'.tokens = c.tokens ∧ c.position < c'.position ∧
          c'.position ≤ c.tokens.length)) ∧
      (∀ c s, firstChecked (Phrase.run n) fuel Construct.chain c s =
        (some <$> firstOf (Phrase.run n) fuel Construct.chain) c s) ∧
      ∀ paced c s, (Phrase.tallied fuel paced c s).2 = Phrase.run fuel (.statements paced) c s ∧
        (Phrase.tallied fuel paced c s).1 ≤ c.rest.length := by
  refine ⟨fun construct c s outcome c' s' h => ?_, fun c s => ?_, fun paced c s => ?_⟩
  -- a handler declines, or it has read something
  · rcases decides_attempt n fuel construct c with hdeclined | hcommitted
    · rw [hdeclined] at h
      cases h
      exact ⟨fun _ => ⟨rfl, rfl⟩, fun hne => absurd rfl hne⟩
    · obtain ⟨hne, hbefore⟩ := hcommitted s outcome c' s' h
      exact ⟨fun heq => absurd heq hne,
        fun _ => ⟨hbefore.tokens, hbefore.position, hbefore.position_le⟩⟩
  · rw [firstChecked_eq]
  · exact ⟨Phrase.tallied_eq fuel paced c s, Phrase.tally_le fuel paced c s⟩

/-- A conditional behind a comment: the construct for loops declines, and that for conditionals ends
with a `return`, behind the block and in front of `else`. -/
theorem Reading.attempt_contract_conditional :
    let kinds : List Kind :=
      [.lineComment "", .keyword .ifKw, .ident "x", .symbol .leftBrace, .keyword .returnKw,
        .ident "x", .symbol .rightBrace, .keyword .elseKw, .symbol .leftBrace, .symbol .rightBrace]
    let s : Session := { env := { root := ⟨[("x", ⟨false, none, .number 5⟩)]⟩ } }
    let c : Cursor := .start (kinds.map Kind.bare)
    let c' : Cursor := ⟨((kinds.map Kind.bare).take 7).reverse, (kinds.map Kind.bare).drop 7⟩
    attempt (Phrase.run 6) 6 .range c s = .ok (.declined, c) s ∧
      attempt (Phrase.run 6) 6 .conditional c s = .ok (.returned (.number 5), c') s ∧
      c'.tokens = c.tokens ∧ c.position < c'.position ∧ c'.position ≤ c.tokens.length := by
  intro kinds s c c'
  have hrange : attempt (Phrase.run 6) 6 .range c s = .ok (.declined, c) s := by rfl
  have hconditional : attempt (Phrase.run 6) 6 .conditional c s =
      .ok (.returned (.number 5), c') s := by rfl
  exact ⟨hrange, hconditional, ((attempt_contract 6 6).1 _ _ _ _ _ _ hconditional).2 nofun⟩

end Tern
