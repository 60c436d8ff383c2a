import Tern.Proofs.Branches
import Tern.Proofs.Observation
import Tern.Proofs.Ranges
import Tern.Proofs.Statement.Refinement

/-!
# Two ways to count

A loop that repeats its block so many times, and a loop over the range from zero to the same bound,
are carried out by rules of their own. The one counts rounds, the other numbers, and only the other
knows of a loop variable and of a second bound. Without a loop variable both do the same to the end,
also where the bound is no number or fails, and where a round returns or fails.

Behind `repeat` and behind `from 0 to` the same rule applies: evaluate a bound, and execute the block
as often as it says. So all that is left to compare is that rule with itself, at two places.

## Key results

- `Reading.range_of_zero`: behind the bound zero a range loop is a counted loop
- `Reading.repeat_as_range`: the two loops do the same
-/

namespace Tern

open Cursor (Reads)

/-! ### The common rule -/

namespace Reading

/-- A round without a loop variable is the block. -/
private theorem rangeRound_none (self : Evaluator) (body : List Token) (i : Number) :
    Eval.rangeRound self none body i = Eval.block self body := rfl

variable {self : Evaluator} {c c₁ c₂ c₃ c₄ c₅ : Cursor} {s : Session}

/-- A bound ends where its expression does. -/
private theorem lands_bound_of {Q : Cursor → Prop}
    (h : Lands (self .expression) c fun _ c' => Q c') : Lands (bound self) c fun _ c' => Q c' := by
  refine .bind (.here (.bind (h.mono fun v c' hc' => ?_)))
  split
  · exact .pure hc'
  · exact .raiseAt

/-- A range loop whose left bound is zero, where nothing but the brace can follow the right one, is
a counted loop behind the left one. -/
theorem range_of_zero (hfrom : Reads c [.keyword .fromKw] c₁)
    (hzero : self .expression c₁ s = .ok (.number 0, c₂) s) (hto : Reads c₂ [.keyword .toKw] c₃)
    (hends : Lands (self .expression) c₃ fun _ c' => c' = c₄)
    (hbrace : Reads c₄ [.symbol .leftBrace] c₅) : range self c s = repeated self c₃ s := by
  unfold range
  rw [after_of_reads hfrom, bind_of_eq_ok (bound_of_number hzero),
    bind_of_pure (expect_of_reads hto _)]
  unfold repeated
  -- the limit is evaluated the same in both, and may be a fault
  cases hbound : bound self c₃ s with
  | error halt s' => rw [bind_of_eq_error hbound, bind_of_eq_error hbound]
  | ok p s' =>
    obtain ⟨limit, c'⟩ := p
    obtain rfl : c' = c₄ := lands_bound_of hends _ _ _ _ hbound
    -- no name stands behind the limit
    have hne : c'.ahead ≠ some (.keyword .withKw) := by
      rw [Cursor.ahead_of_reads hbrace]
      simp
    rw [bind_of_eq_ok hbound, bind_of_eq_ok hbound, bind_of_pure (accept_of_ne hne)]
    simp only [Bool.false_eq_true, if_false, pure_bind, rangeRound_none]
    -- counting from zero, there are as many rounds as the limit says
    have hcount : (limit.toInt - (0 : Number).toInt).toNat = limit.toInt.toNat := by
      rw [Int64.toInt_zero, Int.sub_zero]
    rw [bind_of_pure (expect_of_reads hbrace _), bind_of_pure (expect_of_reads hbrace _), hcount]

/-! ### In front of a loop -/

/-- The token in front is read unless it begins a comment. -/
private theorem reads_front {token : Token} {rest : List Token} {kind : Kind}
    (hrest : c.rest = token :: rest) (hkind : token.kind = kind) (hplain : kind.isPlain = true) :
    Reads c [kind] ⟨token :: c.seen, rest⟩ := by
  have hat : c.atComment = false := by simp [Cursor.atComment, Cursor.front, hrest, hkind, hplain]
  have hreads := Reads.one (Cursor.next?_of_front (congrArg List.head? hrest) hat)
  rwa [hkind, hrest] at hreads

/-- A counted loop does not decline behind its keyword. -/
private theorem lands_repeated (self : Evaluator) (c : Cursor) :
    Lands (repeated self) c fun outcome _ => outcome ≠ .declined := by
  refine .bind (.mono (lands_bound_of fun _ _ _ _ _ => trivial) fun count c₁ _ => ?_)
  refine .bind (.expect fun c₂ _ => .bind (.scan fun body c₃ _ => ?_))
  exact .lift_of_yields (.iterate (fun _ => yields_round) (.pure (by simp)) _ _) fun _ hne => hne

/-- The number in front of a keyword is an expression. -/
private theorem expression_of_number {n : Number} {word : Keyword} (fuel : Nat)
    (h : Reads c [.number n] c₁) (hword : c₁.ahead = some (.keyword word)) (s : Session) :
    Phrase.run (fuel + 1) .expression c s = .ok (.number n, c₁) s := by
  refine logical_of_ok _ ?_ fun tier => ?_
  · rw [unary_of_plain _ (by rw [Cursor.ahead_of_reads h]; rfl), primary_of_reads _ h]
    rfl
  · rw [hword]
    cases tier <;> rfl

/-- A statement that begins with a keyword is the construct of that keyword, if that does not
decline. -/
private theorem firstOf_of_keyword {fuel : Nat} (construct : Construct) {keyword : Keyword}
    (hkeyword : keyword ∈ construct.keywords) {token : Token} {rest : List Token}
    (hrest : c.rest = token :: rest) (hkind : token.kind = .keyword keyword) {s : Session}
    (hown : ∀ c' s', attempt self fuel construct c s ≠ .ok (.declined, c') s') :
    firstOf self fuel Construct.chain c s = attempt self fuel construct c s := by
  -- no comment is in front, so the handlers are asked in their order
  have hat : c.atComment = false := by
    simp [Cursor.atComment, Cursor.front, hrest, hkind, Kind.isPlain]
  have hahead : c.ahead = some (.keyword keyword) :=
    Cursor.ahead_of_reads (reads_front hrest hkind rfl)
  -- no construct that is tried before begins with this keyword
  obtain ⟨before, after, hchain, hbefore⟩ := construct.chain_split (List.ne_nil_of_mem hkeyword)
  have hpassed : ∀ k ∈ before, attempt self fuel k c = pure (.declined, c) := by
    intro k hk
    refine attempt_of_ne (hbefore k hk).1 fun keyword' hkeyword' heq => ?_
    rw [hahead] at heq
    cases heq
    exact (hbefore k hk).2 keyword hkeyword hkeyword'
  rw [firstOf_of_not_atComment hat, hchain, firstOf_of_declined hpassed, firstOf]
  -- it does not decline, so it is the one that decides
  cases hattempt : attempt self fuel construct c s with
  | error halt s' => exact bind_of_eq_error hattempt
  | ok p s' =>
    obtain ⟨outcome, c'⟩ := p
    rw [bind_of_eq_ok hattempt]
    cases outcome with
    | declined => exact absurd hattempt (hown c' s')
    | done => rfl
    | returned value => rfl

/-- A counted loop as a statement. -/
private theorem firstOf_counted (self : Evaluator) (fuel : Nat) {word : Token} {rest : List Token}
    (hrest : c.rest = word :: rest) (hword : word.kind = .keyword .repeatKw) (s : Session) :
    firstOf self fuel Construct.chain c s = repeated self ⟨word :: c.seen, rest⟩ s := by
  have hcounted : attempt self fuel .counted c = repeated self ⟨word :: c.seen, rest⟩ :=
    after_of_reads (reads_front hrest hword rfl) _
  rw [firstOf_of_keyword .counted List.mem_cons_self hrest hword, hcounted]
  rw [hcounted]
  exact fun c' s' h => lands_repeated _ _ _ _ _ _ h rfl

/-- Where an expression stands in front of a brace, it is read up to there. -/
private theorem exists_end {t : Tree .expression} (ht : t.Admitted) (n : Nat)
    {front more : List Token} {opening : Token} (hrest : c.rest = front ++ opening :: more)
    (hfront : Token.bare front = t.kinds.map Kind.bare)
    (hopening : opening.kind = .symbol .leftBrace) :
    ∃ c₁ c₂, Lands (Phrase.run n .expression) c (fun _ c' => c' = c₁) ∧
      Reads c₁ [.symbol .leftBrace] c₂ := by
  obtain ⟨c₁, hbound, hbrace⟩ := (Cursor.reads_through hrest hfront t.kinds_isPlain
    (by rw [hopening]; rfl)).of_append
  rw [hopening] at hbrace
  have hparses : Tree.Parses .whole c t c₁ := by
    refine .of_reads ht t.level_le (by simpa [Tree.closing] using hbound) ?_
    rw [Tree.stops_whole_iff, Cursor.ahead_of_reads hbrace]
    exact Tree.endsBefore_brace
  refine ⟨c₁, _, ((Phrase.sound n).expression c).mono fun v c' h => ?_, hbrace⟩
  -- only one tree stands there
  obtain ⟨u, hu⟩ := h
  exact (hu.unique hparses).2

/-- A range loop from zero as a statement, if an expression and a brace are behind `to`. -/
private theorem firstOf_range {t : Tree .expression} (ht : t.Admitted) (n fuel : Nat)
    {first zero upTo opening : Token} {front more : List Token}
    (hrest : c.rest = first :: zero :: upTo :: (front ++ opening :: more))
    (hfirst : first.kind = .keyword .fromKw) (hzero : zero.kind = .number 0)
    (hupTo : upTo.kind = .keyword .toKw) (hfront : Token.bare front = t.kinds.map Kind.bare)
    (hopening : opening.kind = .symbol .leftBrace) (s : Session) :
    firstOf (Phrase.run (n + 1)) fuel Construct.chain c s =
      repeated (Phrase.run (n + 1))
        ⟨upTo :: zero :: first :: c.seen, front ++ opening :: more⟩ s := by
  -- the words in front are read one after the other
  have hfromRead := reads_front hrest hfirst rfl
  have hzeroRead := reads_front (c := ⟨first :: c.seen, zero :: upTo :: (front ++ opening :: more)⟩)
    rfl hzero rfl
  have htoRead := reads_front (c := ⟨zero :: first :: c.seen, upTo :: (front ++ opening :: more)⟩)
    rfl hupTo rfl
  -- the limit ends in front of the brace, however it is evaluated
  obtain ⟨c₄, c₅, hends, hbrace⟩ := exists_end ht (n + 1)
    (c := ⟨upTo :: zero :: first :: c.seen, front ++ opening :: more⟩) rfl hfront hopening
  -- so the range is read like a counted loop
  have hrange : attempt (Phrase.run (n + 1)) fuel .range c s = repeated _ _ s :=
    range_of_zero hfromRead (expression_of_number n hzeroRead (Cursor.ahead_of_reads htoRead) s)
      htoRead hends hbrace
  -- and no other handler comes before the one for ranges
  rw [firstOf_of_keyword .range List.mem_cons_self hrest hfirst, hrange]
  rw [hrange]
  exact fun c' s' h => lands_repeated _ _ _ _ _ _ h rfl

/-- Without fuel a range loop does not come to its first bound. -/
private theorem firstOf_range_zero (fuel : Nat) {first : Token} {rest : List Token}
    (hrest : c.rest = first :: rest) (hfirst : first.kind = .keyword .fromKw) (s : Session) :
    firstOf (Phrase.run 0) fuel Construct.chain c s = .error .outOfFuel s := by
  have hrange : attempt (Phrase.run 0) fuel .range c s = .error .outOfFuel s :=
    range_of_left_error (reads_front hrest hfirst rfl) rfl
  rw [firstOf_of_keyword .range List.mem_cons_self hrest hfirst, hrange]
  rw [hrange]
  nofun

end Reading

/-! ### The same end -/

/-- Sessions that are the same, where functions are whose bodies look the same. -/
structure Session.Same (view : List Token → List Token) (s t : Session) : Prop where
  env : s.env.viewed view = t.env.viewed view
  settings : s.settings = t.settings
  transcript : s.transcript = t.transcript
  callDepth : s.callDepth = t.callDepth
  nextId : s.nextId = t.nextId
  routines : s.routines = t.routines

/-- Ends of two statements that differ in the places of faults only, where tokens are the same that
look the same: the same outcome in the same session, also where it is a fault, or both run out of
fuel. -/
inductive SameEnd (view : List Token → List Token) :
    EStateM.Result Halt Session (Outcome × Cursor) →
    EStateM.Result Halt Session (Outcome × Cursor) → Prop
  | done {c d : Cursor} {s t : Session} : view c.rest = view d.rest → s.Same view t →
      SameEnd view (.ok (.done, c) s) (.ok (.done, d) t)
  | returned {v w : Value} {c d : Cursor} {s t : Session} : v.viewed view = w.viewed view →
      s.Same view t → SameEnd view (.ok (.returned v, c) s) (.ok (.returned w, d) t)
  | failed {f g : Fault} {s t : Session} : f.cause = g.cause → f.backtrace = g.backtrace →
      s.Same view t → SameEnd view (.error (.fault f) s) (.error (.fault g) t)
  | starved {s t : Session} : SameEnd view (.error .outOfFuel s) (.error .outOfFuel t)

/-- A comparison that leaves nothing out but places. -/
structure Alignment.Complete (A : Alignment) : Prop where
  outside : ∀ {σ es τ fs}, A.outside σ es τ fs ↔ σ = τ ∧ es = fs
  aligned : ∀ {c d}, A.Aligned c d ↔ A.view c.rest = A.view d.rest
  starves : A.firstStarves
  neverStarves : ¬A.secondStarves

/-- Sessions that count as the same for it are the same. -/
private theorem Alignment.Complete.same {A : Alignment} (hA : A.Complete) {s t : Session}
    (h : A.Sessions s t) : s.Same A.view t where
  env := h.env
  settings := (hA.outside.mp h.outside).1
  transcript := (hA.outside.mp h.outside).2
  callDepth := h.callDepth
  nextId := h.nextId
  routines := h.routines

/-- What ends alike, whichever of the two is the one that may run out of fuel, has the same end,
unless a construct has declined. -/
private theorem SameEnd.of_ends {A : Alignment} (hA : A.Complete)
    {x y : EStateM.Result Halt Session (Outcome × Cursor)}
    (h : A.Ends (fun p q => A.Outcomes p.1 q.1 ∧ A.Aligned p.2 q.2) x y)
    (h' : A.Ends (fun p q => A.Outcomes p.1 q.1 ∧ A.Aligned p.2 q.2) y x)
    (hdecides : ∀ c s, x ≠ .ok (.declined, c) s) : SameEnd A.view x y := by
  -- by the ends of the first comparison
  cases h with
  | @ok p q s t hpq hst =>
    obtain ⟨outcome, c⟩ := p
    obtain ⟨outcome', d⟩ := q
    obtain ⟨houtcome, haligned⟩ := hpq
    cases houtcome with
    -- both handlers take their tokens, so neither declines
    | declined => exact absurd rfl (hdecides c s)
    | done => exact .done (hA.aligned.mp haligned) (hA.same hst)
    | returned hvw => exact .returned hvw (hA.same hst)
  | fault hfg hst => exact .failed hfg.cause (congrArg List.reverse hfg.unwound) (hA.same hst)
  -- the first one has run out of fuel, and by the other comparison so has the second
  | first hT =>
    cases h' with
    | first hT => exact .starved
    | second hT => exact absurd hT hA.neverStarves
  | second hT => exact absurd hT hA.neverStarves

/-- Nothing is left out where the same tokens are ahead. -/
private theorem Alignment.ahead_complete : Alignment.ahead.Complete where
  outside := Iff.rfl
  aligned := Iff.rfl
  starves := trivial
  neverStarves := id

/-- Nor where the tokens ahead are of the same kinds, if what happens outside is looked at. -/
private theorem Alignment.placeless_complete : Alignment.placeless.attentive.Complete where
  outside := Iff.rfl
  aligned := Iff.rfl
  starves := trivial
  neverStarves := id

/-! ### The two loops -/

/-- Tokens of these kinds are made of tokens of the first ones, one, and others. -/
private theorem split_of_kinds {tokens : List Token} {before after : List Kind} {kind : Kind}
    (h : tokens.map (·.kind) = before ++ kind :: after) :
    ∃ front token more, tokens = front ++ token :: more ∧
      Token.bare front = Token.bare (before.map Kind.bare) ∧ token.kind = kind := by
  obtain ⟨front, others, rfl, hfront, hothers⟩ := List.map_eq_append_iff.mp h
  obtain ⟨token, more, rfl, hkind, -⟩ := List.map_eq_cons_iff.mp hothers
  refine ⟨front, token, more, rfl, ?_, hkind⟩
  rw [← hfront, List.map_map, Token.bare, ← Token.bareFrom_placeless]
  rfl

namespace Reading

/-- A counted loop and a range loop from zero do the same. They stand at two cursors: behind
`repeat` there and behind `from 0 to` here, the same kinds of tokens follow, first those of an
expression, with comments among them or without, and then a brace. Both loops give the same outcome
in the same session, or fail for the same reason, or neither ends. If the tokens themselves are the
same behind these words, nothing is asked of the session. Otherwise the routines of the host must not
tell functions apart by the places of their tokens. -/
theorem repeat_as_range {t : Tree .expression} (ht : t.Admitted) {count more : List Kind}
    (hcount : Token.bare (count.map Kind.bare) = t.kinds.map Kind.bare) {c d : Cursor}
    (hc : c.rest.map (·.kind) = .keyword .repeatKw :: (count ++ .symbol .leftBrace :: more))
    (hd : d.rest.map (·.kind) =
      .keyword .fromKw :: .number 0 :: .keyword .toKw :: (count ++ .symbol .leftBrace :: more))
    (n fuel : Nat) (s : Session) :
    let execute := firstOf (Phrase.run n) fuel Construct.chain
    (c.rest.drop 1 = d.rest.drop 3 → SameEnd id (execute c s) (execute d s)) ∧
      ((∀ routine ∈ s.routines, routine.Placeless) →
        SameEnd Token.placeless (execute c s) (execute d s)) := by
  intro execute
  -- the tokens in front are those that both forms are written with
  obtain ⟨word, behind, hrest, hword, hbehind⟩ := List.map_eq_cons_iff.mp hc
  obtain ⟨first, _, hrest', hfirst, h⟩ := List.map_eq_cons_iff.mp hd
  obtain ⟨zero, _, rfl, hzero, h⟩ := List.map_eq_cons_iff.mp h
  obtain ⟨upTo, behind', rfl, hupTo, hbehind'⟩ := List.map_eq_cons_iff.mp h
  -- the two comparisons differ in what is asked of tokens and sessions only
  have hsame {A : Alignment} (hA : A.Complete) (hliteral : A.Literal) (hs : A.Sessions s s)
      (hview : A.view behind = A.view behind') : SameEnd A.view (execute c s) (execute d s) := by
    cases n with
    -- without fuel the limit cannot be evaluated
    | zero =>
      have hcounted : execute c s = .error .outOfFuel s :=
        (firstOf_counted _ fuel hrest hword s).trans (bind_of_eq_error (bound_of_error rfl))
      rw [hcounted, show execute d s = _ from firstOf_range_zero fuel hrest' hfirst s]
      exact .starved
    | succ n =>
      -- the limit and the body are behind the words in front, and look the same
      have halike := Phrase.alike_of_literal hliteral hA.starves (Nat.le_refl (n + 1))
      obtain ⟨front, opening, others, rfl, hfront, hopening⟩ := split_of_kinds hbehind'
      have hcounted : execute c s = _ := firstOf_counted _ fuel hrest hword s
      have hrange : execute d s = _ :=
        firstOf_range ht n fuel hrest' hfirst hzero hupTo (hfront.trans hcount) hopening s
      rw [hcounted, hrange]
      exact .of_ends hA (halike.repeated (hA.aligned.mpr hview) s s hs)
        (halike.repeated (hA.aligned.mpr hview.symm) s s hs)
        fun c' s' h => lands_repeated _ _ _ _ _ _ h rfl
  refine ⟨fun hequal => ?_, fun hroutines => ?_⟩
  -- the very same tokens are behind, so places and routines play no part
  · rw [hrest, hrest'] at hequal
    exact hsame Alignment.ahead_complete Alignment.ahead_literal
      (Tolerance.exact_sessions.mpr rfl) hequal
  -- tokens of the same kinds are behind, which differ in their places
  · refine hsame Alignment.placeless_complete (Alignment.placeless_literal.observing _ _)
      ((Tolerance.Sessions.refl_of_placeless hroutines).observing rfl rfl) ?_
    have hkinds := congrArg (List.map Kind.bare) (hbehind.trans hbehind'.symm)
    rwa [List.map_map, List.map_map] at hkinds

/-- A loop whose rounds change what its count was computed from. -/
theorem repeat_as_range_changing :
    let loop : List Kind := [.ident "k", .symbol .leftBrace, .ident "k", .symbol .plusPlus,
      .symbol .rightBrace]
    let c : Cursor := .start ((.keyword .repeatKw :: loop).map Kind.bare)
    let d : Cursor :=
      .start ((.keyword .fromKw :: .number 0 :: .keyword .toKw :: loop).map Kind.bare)
    let s (k : Number) : Session := { env := { root := ⟨[("k", ⟨false, none, .number k⟩)]⟩ } }
    let execute := firstOf (Phrase.run 6) 6 Construct.chain
    execute c (s 3) = .ok (.done, ⟨c.rest.reverse, []⟩) (s 6) ∧
      SameEnd id (execute c (s 3)) (execute d (s 3)) := by
  intro loop c d s execute
  have hcount : Token.bare (([.ident "k"] : List Kind).map Kind.bare) =
    (Tree.read "k").kinds.map Kind.bare := rfl
  exact ⟨by rfl, (repeat_as_range (t := .read "k") trivial hcount rfl rfl 6 6 (s 3)).1 rfl⟩

end Reading

end Tern
