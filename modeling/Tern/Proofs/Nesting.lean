import Tern.Proofs.Framing

/-!
# How scopes and calls nest

Blocks, rounds of loops and calls open scopes, calls are counted, and each of them may be left
through a fault or a `return` at any depth. However an execution ends, every scope that it opened
is gone and every call that it counted is counted out.

Two things about the sessions on the way are said by evaluators that are written differently and
turn out to do the same. `Phrase.watched` looks at the number of active calls whenever a phrase
begins or ends. `Phrase.outermost` does not ask the session whether a `return` stands in the root
scope, but knows it from where the `return` stands.

## Key results

- `Execution.restored`: scopes and calls are left as they were entered
- `Phrase.watched_keeps`: there are never more calls active than allowed
- `Phrase.outermost_eq`: the scope is the root exactly in the outermost list of statements
- `Session.nesting_kept`: all of that, for everything that can be executed
-/

namespace Tern

/-! ### On every way out -/

/-- As many scopes as before are there, each under its number, and as many calls are active. The
number of a scope is its depth, and its parent is the scope with the number below. -/
structure Session.Restored (before after : Session) : Prop where
  depth : after.env.depth = before.env.depth
  callDepth : after.callDepth = before.callDepth
  /-- A scope may have got more variables, but lost none. -/
  scopes : ∀ number,
    Option.Rel Scope.Grows (before.env.scope? number) (after.env.scope? number)

/-- However an execution ends, scopes and calls are left as they were entered. -/
theorem Execution.restored (x : Execution α) (fuel : Nat) (s : Session) :
    s.Restored (x.after fuel s) where
  depth := (x.keeps .nesting fuel trivial).1
  callDepth := (x.keeps .nesting fuel trivial).2.1
  scopes := x.extended.scope?

namespace Session

/-- A session in the root scope with no call active is ready for a run. -/
theorem fresh_eq {s : Session} (hroot : s.env.atRoot = true) (hcalls : s.callDepth = 0) :
    s.fresh = s := by
  obtain ⟨settings, ⟨root, inner⟩, callDepth⟩ := s
  obtain rfl : inner = [] := by simpa [Environment.atRoot] using hroot
  obtain rfl : callDepth = 0 := hcalls
  rfl

/-- After a run the root is the only scope, and no call is active. -/
theorem atRoot_runTokens (s : Session) (fuel : Nat) (tokens : List Token) :
    (s.runTokens fuel tokens).2.env.atRoot = true ∧ (s.runTokens fuel tokens).2.callDepth = 0 := by
  rw [runTokens_snd, Environment.atRoot_iff]
  have h := Execution.restored (.statements false (.start tokens)) fuel s.fresh
  exact ⟨h.depth, h.callDepth⟩

/-- Neither runs nor calls from outside leave a scope or a call behind. -/
theorem Proceeds.atRoot {s t : Session} (h : s.Proceeds t) (hroot : s.env.atRoot = true)
    (hcalls : s.callDepth = 0) : t.env.atRoot = true ∧ t.callDepth = 0 := by
  cases h with
  | run fuel tokens => exact s.atRoot_runTokens fuel tokens
  | call fuel function arguments =>
    have h := Execution.restored (.call function arguments) fuel s
    rw [call_snd, Environment.atRoot_iff, h.depth, h.callDepth, ← Environment.atRoot_iff]
    exact ⟨hroot, hcalls⟩

end Session

/-! ### At every moment -/

/-- Whether no more calls are active than allowed. -/
def Session.withinLimit (s : Session) : Bool := s.callDepth ≤ s.settings.maxCallDepth

/-- Looks at the number of calls before and after, and halts if there are more than allowed. -/
def Eval.watch (x : Eval α) : Eval α := fun s =>
  if s.withinLimit && (Eval.final (x s)).withinLimit then x s else .error .outOfFuel s

/-- Evaluates a phrase with this much fuel, and looks at the number of calls whenever a phrase
begins or ends. -/
def Phrase.watched : (fuel : Nat) → Evaluator
  | 0 => fun _ _ => throw .outOfFuel
  | fuel + 1 => fun _ phrase c => Eval.watch (phrase.rule (watched fuel) fuel c)

/-- Scopes and calls are left as they were entered, where no more calls are active than allowed. -/
def Discipline.bounded : Discipline :=
  { Discipline.nesting with
    Fits := fun _ s => s.withinLimit = true
    fits := by
      rintro _ s t ⟨-, hcalls, hsettings⟩ hfits
      rwa [Session.withinLimit, hcalls, hsettings]
    fitsExpression := id
    fitsStatement := id
    fitsScope := id
    fitsCall := fun hlimit _ => decide_eq_true (Nat.succ_le_of_lt hlimit) }

/-- There are never more calls active than allowed, so it makes no difference to look. -/
theorem Phrase.watched_keeps (fuel : Nat) : Orderly .bounded (run fuel) (watched fuel) := by
  induction fuel with
  | zero => exact fun _ _ => .throw _
  | succ fuel ih =>
    intro α phrase c s hfits
    obtain ⟨hsame, hrel⟩ := ih.rule fuel phrase c s hfits
    refine ⟨?_, hrel⟩
    -- as many calls are active at the end as at the start, so both looks find nothing
    have hend : (Eval.final (phrase.rule (run fuel) fuel c s)).withinLimit = true :=
      Discipline.bounded.fits hrel hfits
    show Eval.watch (phrase.rule (watched fuel) fuel c) s = _
    rw [Eval.watch, hsame, hend, show s.withinLimit = true from hfits]
    rfl

/-- At the limit no function that is written in the language is entered. -/
theorem Eval.final_call_of_limit (self : Evaluator) {function : Callable} {tokens : List Token}
    (hbody : function.body = .tokens tokens) (arguments : List Value) {s : Session}
    (hlimit : s.settings.maxCallDepth ≤ s.callDepth) :
    final (call self function arguments s) = s := by
  unfold call
  rw [hbody]
  -- the arguments are checked before the limit, and either check ends the call without a trace
  cases function.check arguments with
  | error cause => rfl
  | ok =>
    show final ((if s.settings.maxCallDepth ≤ s.callDepth then _ else _ : Eval Value) s) = s
    rw [if_pos hlimit]
    rfl

/-! ### Returns in the root scope -/

namespace Reading

/-- The value of a `return`, where `outermost` says whether it stands in the outermost list of
statements. -/
def returnedIn (outermost : Bool) (self : Evaluator) (span : Span) : Reading Value := do
  if outermost then
    raiseAt span (.malformed .returnAtRoot)
  else
    let _ ← next
    if (← get).atEnd then return .void else locate span (self .expression)

/-- Offers a statement to the constructs, and goes on with the statements behind it. -/
def dispatchedThen (behind : Reading (Option Value)) (self : Evaluator) (fuel : Nat)
    (token : Token) : Reading (Option Value) := do
  match ← locate token.span (firstOf self fuel Construct.chain) with
  | .declined => raiseAt token.span (.unknownToken token.kind.text)
  | .done => behind
  | .returned value => return some value

/-- Statements up to the end of the tokens or a `return`, where `outermost` says whether this is the
outermost list of statements, and `behind` evaluates the statements behind the first. -/
def statementsIn (outermost : Bool) (self : Evaluator) (behind : Reading (Option Value))
    -- what is told apart is whether a `return` would stand at the root
    (fuel : Nat) (paced : Bool) : Reading (Option Value) := do
  match (← get).front with
  | none => return none
  | some token =>
    match token.kind with
    | .symbol .rightBrace => raiseAt token.span (.malformed .unmatchedBrace)
    | .keyword .returnKw => some <$> returnedIn outermost self token.span
    | _ =>
      if paced then modifyThe Session Session.pace
      dispatchedThen behind self fuel token

end Reading

namespace Phrase

/-- Evaluates a phrase inside a block or a body. -/
def nested : (fuel : Nat) → Evaluator
  | 0 => fun _ _ => throw .outOfFuel
  | fuel + 1 => fun _ phrase =>
    match phrase with
    | .statements paced =>
      Reading.statementsIn false (nested fuel) (nested fuel (.statements true)) fuel paced
    | phrase => phrase.rule (nested fuel) fuel

/-- Evaluates the outermost list of statements. -/
def outermost : (fuel : Nat) → (paced : Bool) → Reading (Option Value)
  | 0, _ => throw .outOfFuel
  | fuel + 1, paced => Reading.statementsIn true (nested fuel) (outermost fuel true) fuel paced

end Phrase

/-- The session is asked only about a `return` in front. -/
theorem Reading.statements_eq (self : Evaluator) (fuel : Nat) (paced : Bool) (c : Cursor)
    (s : Session) :
    statements self fuel paced c s =
      statementsIn s.env.atRoot self (self (.statements true)) fuel paced c s := by
  show (match c.front with | none => _ | some token => _ : Reading (Option Value)) c s =
    (match c.front with | none => _ | some token => _ : Reading (Option Value)) c s
  -- the three kinds of tokens in front that are told apart, and then all others alike
  cases c.front with
  | none => rfl
  | some token =>
    obtain ⟨kind, span⟩ := token
    cases kind with
    | symbol mark =>
      cases mark with
      | rightBrace => rfl
      | _ => cases paced <;> rfl
    | keyword word =>
      cases word with
      | returnKw => rfl
      | _ => cases paced <;> rfl
    | _ => cases paced <;> rfl

/-- Scopes and calls are left as they were entered, where statements do not stand in the root
scope. -/
def Discipline.inside : Discipline :=
  { Discipline.nesting with
    -- inside calls and blocks there is a scope apart from the root
    Fits := fun stage s => stage = .statements → 0 < s.env.depth
    fits := by
      rintro _ s t ⟨hdepth, -, -⟩ hfits hstage
      rw [hdepth]
      exact hfits hstage
    -- of expressions and single statements nothing is asked, as no `return` is read there
    fitsExpression := by
      rintro _ _ _ ⟨⟩
    fitsStatement := by
      rintro _ _ ⟨⟩
    fitsScope := fun _ _ => Nat.succ_pos _
    fitsCall := by
      rintro _ _ _ ⟨⟩ }

/-- In a block or a body the scope is never the root. -/
theorem Phrase.nested_keeps (fuel : Nat) : Orderly .inside (run fuel) (nested fuel) := by
  -- on fuel; only lists of statements are evaluated in another way
  induction fuel with
  | zero => exact fun _ _ => .throw _
  | succ fuel ih =>
    intro α phrase
    cases phrase with
    | statements paced =>
      intro c s hfits
      obtain ⟨hsame, hrel⟩ := ih.statements fuel paced c s hfits
      refine ⟨?_, hrel⟩
      -- what the session would answer is known in advance
      have hinside : s.env.atRoot = false := by
        have hdepth : 0 < s.env.depth := hfits rfl
        rw [Bool.eq_false_iff, ne_eq, Environment.atRoot_iff]
        omega
      rw [Reading.statements_eq, hinside] at hsame
      exact hsame
    | expression | additive | multiplicative | unary | arguments | arms => exact ih.rule fuel _

namespace Reading

section

variable {self self' : Evaluator} {behind behind' : Reading (Option Value)}
  (hself : Orderly .inside self self')
  (hbehind : ∀ c s, s.env.atRoot = true → behind' c s = behind c s)

include hself hbehind

/-- A statement leaves the session in the root scope, where the next one finds it. -/
private theorem dispatchedThen_eq (fuel : Nat) (token : Token) (c : Cursor) {s : Session}
    (hroot : s.env.atRoot = true) :
    dispatchedThen behind' self' fuel token c s = dispatchedThen behind self fuel token c s := by
  -- the handlers are the same, and leave the scopes as they are
  obtain ⟨hsame, hrel⟩ := Keeps.locate token.span (hself.firstOf fuel Construct.chain) c s nofun
  unfold dispatchedThen
  cases hfirst : locate token.span (firstOf self fuel Construct.chain) c s with
  | error halt t =>
    rw [hfirst] at hsame
    rw [bind_of_eq_error hfirst, bind_of_eq_error hsame]
  | ok p t =>
    obtain ⟨outcome, c'⟩ := p
    rw [hfirst] at hsame hrel
    rw [bind_of_eq_ok hfirst, bind_of_eq_ok hsame]
    cases outcome with
    | declined | returned value => rfl
    | done =>
      -- a declaration in this statement has not changed the number of scopes
      refine hbehind c' t ?_
      rw [Environment.atRoot_iff] at hroot ⊢
      exact hrel.1.trans hroot

private theorem statementsIn_eq (fuel : Nat) (paced : Bool) (c : Cursor) {s : Session}
    (hroot : s.env.atRoot = true) :
    statementsIn true self' behind' fuel paced c s =
      statementsIn true self behind fuel paced c s := by
  -- neither does a pause change what is the root
  have hpaced : s.pace.env.atRoot = true := by
    rw [Environment.atRoot_iff] at hroot ⊢
    exact ((Eval.Keeps.pace : Eval.Keeps .nesting .statement _ _) s trivial).2.1.trans hroot
  -- a pause does not touch the scopes, so it makes no difference whether there is one
  have hdispatch : ∀ token,
      (do
        if paced then modifyThe Session Session.pace
        dispatchedThen behind' self' fuel token : Reading (Option Value)) c s =
      (do
        if paced then modifyThe Session Session.pace
        dispatchedThen behind self fuel token : Reading (Option Value)) c s := by
    intro token
    cases paced with
    | true => exact dispatchedThen_eq hself hbehind fuel token c hpaced
    | false => exact dispatchedThen_eq hself hbehind fuel token c hroot
  unfold statementsIn
  rw [cursor_bind, cursor_bind]
  -- braces and `return` are the same in both, and all else is dispatched
  cases c.front with
  | none => rfl
  | some token =>
    obtain ⟨kind, span⟩ := token
    cases kind with
    | symbol mark =>
      cases mark with
      | rightBrace => rfl
      | _ => exact hdispatch _
    | keyword word =>
      cases word with
      | returnKw => rfl
      | _ => exact hdispatch _
    | _ => exact hdispatch _

end

end Reading

/-- In the outermost list of statements the scope is always the root. -/
theorem Phrase.outermost_eq (fuel : Nat) (paced : Bool) (c : Cursor) {s : Session}
    (hroot : s.env.atRoot = true) :
    outermost fuel paced c s = run fuel (.statements paced) c s := by
  induction fuel generalizing paced c s with
  | zero => rfl
  | succ fuel ih =>
    show Reading.statementsIn true (nested fuel) (outermost fuel true) fuel paced c s =
      Reading.statements (run fuel) fuel paced c s
    rw [Reading.statements_eq, hroot]
    -- the statements inside are nested ones, those behind the first are still the outermost
    exact Reading.statementsIn_eq (nested_keeps fuel) (fun c s hroot => ih true c hroot) fuel paced c
      hroot

namespace Session

/-- A run is the execution of an outermost list of statements. -/
theorem runTokens_eq_outermost (s : Session) (fuel : Nat) (tokens : List Token) :
    s.runTokens fuel tokens = s.fresh.evaluate do
      return (← Reading.onTokens tokens (Phrase.outermost fuel false)).getD .void := by
  have hroot : s.fresh.env.atRoot = true := rfl
  have hlist := Phrase.outermost_eq fuel false (.start tokens) hroot
  show s.fresh.evaluate _ = _
  simp only [evaluate, Reading.onTokens, Bind.bind, EStateM.bind, hlist]

/-- Scopes and calls nest. For everything that can be executed, with any fuel:

* however it ends, the scopes are there as before and as many calls are active as before, and so
  it is for a run from the root scope with no call active;
* on the way there are never more calls active than allowed: it makes no difference to look
  whenever a phrase begins or ends, and a function that is called at the limit is not entered;
* no sequence of runs and calls from outside leaves the root scope or a call active;
* in a run, a `return` finds itself in the root scope exactly if it stands in the outermost list of
  statements. -/
theorem nesting_kept (fuel : Nat) (s : Session) :
    (∀ {α : Type} (x : Execution α), s.Restored (x.after fuel s)) ∧
    (∀ tokens, s.env.atRoot = true → s.callDepth = 0 → s.Restored (s.runTokens fuel tokens).2) ∧
    (∀ {α : Type} (x : Execution α), s.callDepth ≤ s.settings.maxCallDepth →
      x.eval (Phrase.watched fuel) fuel s = x.run fuel s) ∧
    (∀ (self : Evaluator) (function : Callable) (tokens : List Token) (arguments : List Value),
      function.body = .tokens tokens → s.settings.maxCallDepth ≤ s.callDepth →
      Eval.final (Eval.call self function arguments s) = s) ∧
    (∀ t, Relation.ReflTransGen Proceeds s t → s.env.atRoot = true → s.callDepth = 0 →
      t.env.atRoot = true ∧ t.callDepth = 0) ∧
    ∀ tokens, s.runTokens fuel tokens = s.fresh.evaluate do
      return (← Reading.onTokens tokens (Phrase.outermost fuel false)).getD .void := by
  -- the steps of an execution restore what they have changed; the rest follows for runs and calls
  refine ⟨fun x => x.restored fuel s, ?_, ?_, ?_, ?_, s.runTokens_eq_outermost fuel⟩
  · intro tokens hroot hcalls
    rw [runTokens_snd, fresh_eq hroot hcalls]
    exact Execution.restored _ fuel s
  · intro α x hlimit
    exact (Orderly.execution (Phrase.watched_keeps fuel) fuel x s (decide_eq_true hlimit)).1
  · intro self function tokens arguments hbody hlimit
    exact Eval.final_call_of_limit self hbody arguments hlimit
  -- along the requests of the host, each of which comes back to the root
  · intro t hpath hroot hcalls
    induction hpath with
    | refl => exact ⟨hroot, hcalls⟩
    | tail _ hstep ih => exact hstep.atRoot ih.1 ih.2

/-- A function that calls itself without end, in a session where one call may be active. -/
theorem nesting_kept_recursion :
    let call := [.ident "f", .symbol .leftParen, .symbol .rightParen].map Kind.bare
    let tokens := [.keyword .defKw, .ident "f", .symbol .leftParen, .symbol .rightParen,
      .symbol .leftBrace].map Kind.bare ++ call ++ Kind.bare (.symbol .rightBrace) :: call
    let f : Callable :=
      { id := 0, name := "f", parameters := [], returns := none, body := .tokens call }
    let s : Session := { settings := { maxCallDepth := 1 } }
    let t := (s.runTokens 6 tokens).2
    (s.runTokens 6 tokens).1 = .error (.fault { cause := .recursionLimit 1
                                                span := some default
                                                unwound := ["f"] }) ∧
      s.Restored t ∧ Eval.call (Phrase.watched 6) f [] t = Eval.call (Phrase.run 6) f [] t ∧
      Eval.final (Eval.call (Phrase.run 6) f [] { t with callDepth := 1 }) =
        { t with callDepth := 1 } ∧
      (t.call 6 f []).2.env.atRoot = true ∧ (t.call 6 f []).2.callDepth = 0 := by
  intro call tokens f s t
  -- each part of the theorem is looked at in the session where it has something to say
  obtain ⟨-, hrun, -, -, hpath, -⟩ := nesting_kept 6 s
  obtain ⟨-, -, hwatched, -⟩ := nesting_kept 6 t
  obtain ⟨-, -, -, hlimit, -⟩ := nesting_kept 6 { t with callDepth := 1 }
  refine ⟨rfl, hrun tokens rfl rfl, hwatched (.call f []) (by decide), ?_, ?_⟩
  · exact hlimit _ f call [] rfl (by decide)
  · exact hpath _ (.tail (.single (.run s 6 tokens)) (.call t 6 f [])) rfl rfl

end Session

end Tern
