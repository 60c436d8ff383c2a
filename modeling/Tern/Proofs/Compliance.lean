import Tern.Proofs.Contract
import Tern.Proofs.Preservation

/-!
# Evaluation meets contracts

If the phrases inside and the calls meet a contract, so does every rule of evaluation. The second of
the two evaluators that are compared may make calls in its own way: its rules for expressions are
those of the language with calls left open.

## Key results

- `Compliant.named`, `Compliant.logical`: names and expressions
- `Compliant.attempt`, `Compliant.statements`: constructs and statements
- `Compliant.rule`: every rule
- `Eval.Meets.inside`: the body of a function, under a contract of its own
- `Phrase.compliant`: so evaluation meets every contract that does not care about calls
-/

namespace Tern

open Cursor (Reads)

/-! ### Expressions with calls left open -/

namespace Reading

section

variable (call : Callable → List Value → Eval Value) (self : Evaluator)

/-- What a name that stands at `span` means. -/
def namedWith (name : String) (span : Span) : Reading Value := do
  -- as evaluation itself has it, but with another way to call functions
  match (← getThe Session).env.lookup name with
  | none => raiseAt span (.undefinedVariable name)
  | some binding =>
    match ← peekKind with
    | some (.symbol .leftParen) =>
      match binding.value with
      | .function function =>
        let _ ← next
        locate span do
          let arguments ← callArguments self
          call function arguments
      | other => raiseAt span (.typeMismatch Ty.function.name other.typeName)
    | some (.symbol .equal) =>
      if binding.isFinal then
        raiseAt span (.constantViolation name)
      else
        let _ ← next
        let value ← self .expression
        locate span (Eval.assign name value)
        return value
    | some (.symbol .plusPlus) =>
      let _ ← next
      locate span (Eval.step name binding true)
    | some (.symbol .minusMinus) =>
      let _ ← next
      locate span (Eval.step name binding false)
    | _ => return binding.value

/-- A literal, a name, or an expression in parentheses. -/
def primaryWith : Reading Value := do
  let span ← here
  match ← next with
  | none => raiseAt span (.malformed (.endOfInput "expression"))
  | some token =>
    match token.kind with
    | .symbol .leftParen =>
      let value ← self .expression
      expect (.symbol .rightParen) "`)` to close the parenthesis"
      return value
    | .str text => return .text text
    | .number n => return .number n
    | .keyword .trueKw => return .boolean true
    | .keyword .falseKw => return .boolean false
    | .ident name => namedWith call self name span
    | .unknown text => raiseAt span (.unknownToken text)
    | other => raiseAt span (.malformed (.expected "expression" other.text))

/-- A core expression with unary operators in front. -/
def unaryWith : Reading Value := do
  match ← peek with
  | none => primaryWith call self
  | some token =>
    match UnaryOp.ofKind? token.kind with
    | none => primaryWith call self
    | some op =>
      let _ ← next
      let operand ← self .unary
      computed token.span (op.apply operand)

/-- Factors joined by multiplicative operators. -/
def multiplicativeWith : Reading Value :=
  rightGrouped .multiplicative (unaryWith call self) (self .multiplicative)

/-- Terms joined by additive operators. -/
def additiveWith : Reading Value :=
  rightGrouped .additive (multiplicativeWith call self) (self .additive)

/-- One sum, or two of them compared. -/
def comparisonWith : Reading Value := do
  let left ← additiveWith call self
  match ← operatorAhead .comparison with
  | none => return left
  | some (op, span) =>
    let _ ← next
    let right ← additiveWith call self
    match ← operatorAhead .comparison with
    | some (_, next) => raiseAt next (.malformed .chainedComparison)
    | none => computed span (op.apply left right)

/-- Comparisons joined by logical operators: a whole expression. -/
def logicalWith : Reading Value :=
  rightGrouped .logical (comparisonWith call self) (self .expression)

end

end Reading

/-- The rule for each phrase, with calls left open. -/
def Phrase.ruleWith (call : Callable → List Value → Eval Value) (self : Evaluator) (fuel : Nat) :
    Phrase α → Reading α
  | expression => Reading.logicalWith call self
  | additive => Reading.additiveWith call self
  | multiplicative => Reading.multiplicativeWith call self
  | unary => Reading.unaryWith call self
  | phrase => phrase.rule self fuel

/-- The rules of evaluation make calls by `Eval.call`. -/
theorem Phrase.ruleWith_call (self : Evaluator) (fuel : Nat) (phrase : Phrase α) :
    phrase.ruleWith (Eval.call self) self fuel = phrase.rule self fuel := by
  cases phrase <;> rfl

/-! ### What the rules have to show -/

/-- The result of a phrase, if it is or has a function, has a body as said. -/
def Phrase.Has (P : List Token → Prop) : Phrase α → α → Prop
  | .expression, v | .additive, v | .multiplicative, v | .unary, v => v.Has P
  | .arguments, vs => ∀ v ∈ vs, v.Has P
  | .arms, v? | .statements _, v? => ∀ v ∈ v?, v.Has P

/-- What a construct returned, if it did, has a body as said. -/
def Outcome.Has (P : List Token → Prop) : Outcome → Prop
  | .returned v => v.Has P
  | _ => True

/-- What a call gives if its body returned this. -/
theorem Value.has_getD {P : List Token → Prop} {v? : Option Value} (h : ∀ v ∈ v?, v.Has P) :
    (v?.getD .void).Has P := by
  cases v? with
  | none => trivial
  | some v => exact h v rfl

theorem Outcome.has_ofReturn {P : List Token → Prop} {v? : Option Value}
    (h : ∀ v ∈ v?, v.Has P) : (Outcome.ofReturn v?).Has P := by
  cases v? with
  | none => trivial
  | some v => exact h v rfl

theorem Outcome.has_map_returned {P : List Token → Prop} {v? : Option Value}
    (h : ∀ v ∈ v?, v.Has P) : ∀ outcome ∈ v?.map Outcome.returned, outcome.Has P := by
  intro outcome houtcome
  obtain ⟨v, hv, rfl⟩ := Option.map_eq_some_iff.mp houtcome
  exact h v hv

variable {R : Contract}

/-- Where no brace is open the readings meet the contract, and no brace is open behind them. -/
def Reading.Complies (R : Contract) (x y : Reading α) (G : α → Prop) : Prop :=
  ∀ ⦃c : Cursor⦄, R.Ahead 0 c → Meets R x y c fun a c' => G a ∧ R.Ahead 0 c'

/-- Where no brace is open, or no token is left, the readings meet the contract to the end. -/
def Reading.Finishes (R : Contract) (x y : Reading α) (G : α → Prop) : Prop :=
  ∀ ⦃c : Cursor⦄, (c.rest = [] ∨ R.Ahead 0 c) → Meets R x y c fun a _ => G a

/-- All tokens of a block. There may be none. -/
theorem Reading.Finishes.onTokens {x y : Reading α} {G : α → Prop} (h : Finishes R x y G)
    {tokens : List Token} (htokens : R.Block tokens) :
    Eval.Meets R (Reading.onTokens tokens x) (Reading.onTokens tokens y) G := by
  refine Meets.onTokens (h ?_)
  by_cases hempty : tokens = []
  · exact .inl hempty
  · exact .inr (R.started htokens hempty)

/-- The body of a function in its scope, which starts with the parameters. -/
theorem Eval.Meets.body {x y : Eval α} {Q : α → Prop} (h : Eval.Meets R x y Q)
    (parameters : List Parameter) {arguments : List Value}
    (harguments : ∀ v ∈ arguments, v.Has R.Body) :
    Eval.Meets R (Eval.inScope do Eval.bindParameters parameters arguments; x)
      (Eval.inScope do Eval.bindParameters parameters arguments; y) Q :=
  .inScope (.bind (.bindParameters harguments) fun _ _ => h)

/-- What is asked of the two readings of a phrase. Statements may begin where no token is left. -/
def Phrase.Complies (R : Contract) (x y : Reading α) : Phrase α → Prop
  | phrase@(.statements _) => Reading.Finishes R x y (phrase.Has R.Body)
  | phrase => Reading.Complies R x y (phrase.Has R.Body)

/-- The same where the phrase is inside another one. Statements are inside as blocks only. -/
def Phrase.CompliesInside (R : Contract) (x y : Reading α) : Phrase α → Prop
  | phrase@(.statements _) => ∀ ⦃tokens : List Token⦄, R.Block tokens →
    Eval.Meets R (Reading.onTokens tokens x) (Reading.onTokens tokens y) (phrase.Has R.Body)
  | phrase => Reading.Complies R x y (phrase.Has R.Body)

theorem Phrase.Complies.inside {x y : Reading α} {phrase : Phrase α} (h : phrase.Complies R x y) :
    phrase.CompliesInside R x y := by
  cases phrase with
  | statements paced => exact fun tokens htokens => Reading.Finishes.onTokens h htokens
  | _ => exact h

/-- The phrases that are evaluated by either evaluator meet the contract, and so do calls. -/
structure Compliant (R : Contract) (e e' : Evaluator)
    (call' : Callable → List Value → Eval Value) : Prop where
  phrase : ∀ {α : Type} (phrase : Phrase α), phrase.CompliesInside R (e phrase) (e' phrase)
  call : ∀ function arguments, function.body.Has R.Body → (∀ v ∈ arguments, v.Has R.Body) →
    Eval.Meets R (Eval.call e function arguments) (call' function arguments) (Value.Has R.Body)

namespace Compliant

variable {self self' : Evaluator} {call' : Callable → List Value → Eval Value}
  (h : Compliant R self self' call') {c : Cursor}

include h

/-- An expression, wherever it stands. -/
theorem value : Reading.Complies R (self .expression) (self' .expression) (Value.Has R.Body) :=
  h.phrase .expression

theorem body {tokens : List Token} (htokens : R.Block tokens) :
    Eval.Meets R (Reading.onTokens tokens (self (.statements true)))
      (Reading.onTokens tokens (self' (.statements true))) fun v? => ∀ v ∈ v?, v.Has R.Body :=
  h.phrase (.statements true) htokens

theorem block {tokens : List Token} (htokens : R.Block tokens) :
    Eval.Meets R (Eval.block self tokens) (Eval.block self' tokens)
      fun v? => ∀ v ∈ v?, v.Has R.Body :=
  .inScope (h.body htokens)

/-! ### Expressions -/

theorem callArguments :
    Reading.Complies R (Reading.callArguments self) (Reading.callArguments self')
      fun vs => ∀ v ∈ vs, v.Has R.Body := by
  intro c hc
  refine .accept (fun c' hreads => .pure ⟨by simp, R.plain hc hreads (by simp) (by simp)⟩) ?_
  exact h.phrase .arguments hc

theorem named (name : String) {span : Span} (hspan : R.Place span) :
    Reading.Complies R (Reading.named self name span) (Reading.namedWith call' self' name span)
      (Value.Has R.Body) := by
  intro c hc
  show Reading.Meets R (Reading.namedWith (Eval.call self) self name span) _ c _
  -- the name is looked up where the evaluation is, so its value is one of the session
  refine .session fun s hs => ?_
  cases hlookup : s.env.lookup name with
  | none => exact .raiseAt rfl hspan
  | some binding =>
    have hvalue : binding.value.Has R.Body := hs.env.lookup hlookup
    refine .peekKind ?_
    -- what follows the name decides: a call, an assignment, `++`, `--`, or nothing of its own
    have hstep : ∀ {mark c'}, c.ahead = some (.symbol mark) → Reads c [.symbol mark] c' →
        mark ≠ .leftBrace → mark ≠ .rightBrace → R.Ahead 0 c' := by
      intro mark c' _ hreads hl hr
      exact R.plain hc hreads (by simpa using hl) (by simpa using hr)
    split
    -- a call: the function may be handed in, so its body is one of those allowed
    · rename_i hahead
      split
      · rename_i function hfunction
        rw [hfunction] at hvalue
        refine .step hahead fun token c₁ hreads => .locate hspan ?_
        refine .bind (h.callArguments (hstep hahead hreads (by simp) (by simp)))
          fun arguments c₂ harguments => ?_
        refine (Reading.Meets.lift (h.call function arguments hvalue harguments.1)).mono ?_
        rintro v c₃ ⟨hv, rfl⟩
        exact ⟨hv, harguments.2⟩
      · exact .raiseAt rfl hspan
    -- an assignment, of a value that has been evaluated
    · rename_i hahead
      split
      · exact .raiseAt rfl hspan
      · refine .step hahead fun token c₁ hreads => ?_
        refine .bind (h.value (hstep hahead hreads (by simp) (by simp))) fun v c₂ hv => ?_
        refine .bind (.locate hspan (.lift (.assign hv.1))) ?_
        rintro _ c₃ ⟨-, rfl⟩
        exact .pure hv
    -- `++` and `--`: a step of the number
    · rename_i hahead
      refine .step hahead fun token c₁ hreads => .locate hspan ?_
      refine (Reading.Meets.lift (.step hvalue true)).mono ?_
      rintro v c₂ ⟨hv, rfl⟩
      exact ⟨hv, hstep hahead hreads (by simp) (by simp)⟩
    · rename_i hahead
      refine .step hahead fun token c₁ hreads => .locate hspan ?_
      refine (Reading.Meets.lift (.step hvalue false)).mono ?_
      rintro v c₂ ⟨hv, rfl⟩
      exact ⟨hv, hstep hahead hreads (by simp) (by simp)⟩
    -- nothing of its own follows, and the value is taken
    · exact .pure ⟨hvalue, hc⟩

theorem primary :
    Reading.Complies R (Reading.primary self) (Reading.primaryWith call' self')
      (Value.Has R.Body) := by
  intro c hc
  have hhere := R.here hc (.nil c)
  refine .here (.next (fun _ => .raiseAt rfl hhere) fun token c₁ hnext => ?_)
  have hreads : Reads c [token.kind] c₁ := .one hnext
  obtain ⟨kind, place⟩ := token
  -- an expression begins with no brace, so no brace is read
  cases kind with
  | symbol mark =>
    cases mark with
    -- a group, from one bracket to the other
    | leftParen =>
      refine .bind (h.value (R.plain hc hreads (by simp) (by simp))) fun v c₂ hv => ?_
      refine .expect hv.2 fun c₃ hclose => .pure ⟨hv.1, ?_⟩
      exact R.plain hv.2 hclose (by simp) (by simp)
    | _ => exact .raiseAt rfl hhere
  | keyword word =>
    cases word with
    | trueKw | falseKw => exact .pure ⟨trivial, R.plain hc hreads (by simp) (by simp)⟩
    | _ => exact .raiseAt rfl hhere
  | str _ | number _ => exact .pure ⟨trivial, R.plain hc hreads (by simp) (by simp)⟩
  -- a name, with the place in front of it
  | ident name => exact h.named name hhere (R.plain hc hreads (by simp) (by simp))
  | unknown _ | lineComment _ => exact .raiseAt rfl hhere

theorem unary :
    Reading.Complies R (Reading.unary self) (Reading.unaryWith call' self') (Value.Has R.Body) := by
  intro c hc
  refine .peek ?_
  have hahead := c.peek_map_kind
  -- without an operator in front there is an operand
  cases hpeek : c.peek with
  | none => exact h.primary hc
  | some token =>
    rw [hpeek, Option.map_some] at hahead
    simp only
    cases hop : UnaryOp.ofKind? token.kind with
    | none => exact h.primary hc
    | some op =>
      -- an operator is no brace
      refine .step hahead.symm fun _ c₁ hreads => ?_
      have hl : token.kind ≠ .symbol .leftBrace := by
        intro hkind
        simp [hkind, UnaryOp.ofKind?] at hop
      have hr : token.kind ≠ .symbol .rightBrace := by
        intro hkind
        simp [hkind, UnaryOp.ofKind?] at hop
      refine .bind (h.phrase .unary (R.plain hc hreads hl hr)) fun v c₂ hv => ?_
      have hcomputed := op.computed_apply v
      exact .computed (R.peeked hc hpeek) (fun _ hw => ⟨hcomputed.has hw, hv.2⟩)
        fun _ => hcomputed.isOrdinary

omit h in
/-- An operator is no brace. -/
private theorem ahead_of_operator {op : BinaryOp} {c c' : Cursor} (hc : R.Ahead 0 c)
    (hreads : Reads c [.symbol op.mark] c') : R.Ahead 0 c' :=
  R.plain hc hreads (by cases op <;> simp [BinaryOp.mark]) (by cases op <;> simp [BinaryOp.mark])

omit h in
private theorem rightGrouped (tier : Tier) {operand operand' others others' : Reading Value}
    (hoperand : Reading.Complies R operand operand' (Value.Has R.Body))
    (hothers : Reading.Complies R others others' (Value.Has R.Body)) :
    Reading.Complies R (Reading.rightGrouped tier operand others)
      (Reading.rightGrouped tier operand' others') (Value.Has R.Body) := by
  intro c hc
  refine .bind (hoperand hc) fun left c₁ hleft => ?_
  refine .operatorAhead hleft.2 (.pure hleft) fun op span hahead hspan => ?_
  refine .step hahead fun _ c₂ hreads => ?_
  refine .bind (hothers (ahead_of_operator hleft.2 hreads)) fun right c₃ hright => ?_
  have hcomputed := op.computed_apply left right
  exact .computed hspan (fun _ hv => ⟨hcomputed.has hv, hright.2⟩) fun _ => hcomputed.isOrdinary

theorem multiplicative :
    Reading.Complies R (Reading.multiplicative self) (Reading.multiplicativeWith call' self')
      (Value.Has R.Body) :=
  rightGrouped _ h.unary (h.phrase .multiplicative)

theorem additive :
    Reading.Complies R (Reading.additive self) (Reading.additiveWith call' self')
      (Value.Has R.Body) :=
  rightGrouped _ h.multiplicative (h.phrase .additive)

theorem comparison :
    Reading.Complies R (Reading.comparison self) (Reading.comparisonWith call' self')
      (Value.Has R.Body) := by
  intro c hc
  refine .bind (h.additive hc) fun left c₁ hleft => ?_
  refine .operatorAhead hleft.2 (.pure hleft) fun op span hahead hspan => ?_
  refine .step hahead fun _ c₂ hreads => ?_
  refine .bind (h.additive (ahead_of_operator hleft.2 hreads)) fun right c₃ hright => ?_
  have hcomputed := op.computed_apply left right
  refine .operatorAhead hright.2 ?_ fun _ _ _ hnext => .raiseAt rfl hnext
  exact .computed hspan (fun _ hv => ⟨hcomputed.has hv, hright.2⟩) fun _ => hcomputed.isOrdinary

theorem logical :
    Reading.Complies R (Reading.logical self) (Reading.logicalWith call' self')
      (Value.Has R.Body) :=
  rightGrouped _ h.comparison h.value

theorem arguments :
    Reading.Complies R (Reading.arguments self) (Reading.arguments self')
      fun vs => ∀ v ∈ vs, v.Has R.Body := by
  intro c hc
  refine .bind (h.value hc) fun first c₁ hfirst => ?_
  refine .accept (fun c₂ hreads => .pure ⟨?_, R.plain hfirst.2 hreads (by simp) (by simp)⟩) ?_
  · simpa using hfirst.1
  · refine .expect hfirst.2 fun c₂ hreads => ?_
    refine .bind (h.phrase .arguments (R.plain hfirst.2 hreads (by simp) (by simp)))
      fun others c₃ hothers => .pure ⟨?_, hothers.2⟩
    exact List.forall_mem_cons.mpr ⟨hfirst.1, hothers.1⟩

/-! ### Blocks -/

omit h in
/-- A block behind its opening brace: it is cut out, and then something is done with it. -/
private theorem braced {what : String} {f g : List Token → Reading α} {G : α → Prop}
    (hc : R.Ahead 0 c) (hfg : ∀ tokens c', R.Body tokens → R.Block tokens → R.Ahead 0 c' →
      Reading.Meets R (f tokens) (g tokens) c' fun a c'' => G a ∧ R.Ahead 0 c'') :
    Reading.Meets R (do Reading.expect (.symbol .leftBrace) what; f (← Reading.scan Scan.block))
      (do Reading.expect (.symbol .leftBrace) what; g (← Reading.scan Scan.block)) c
      fun a c' => G a ∧ R.Ahead 0 c' := by
  refine .expect hc fun c₁ hreads => ?_
  refine .bind (.scan (.block (R.opened hc hreads))) fun tokens c₂ h₂ => ?_
  exact hfg tokens c₂ h₂.1 h₂.2.1 h₂.2.2

omit h in
/-- An evaluation leaves the cursor in its place. -/
private theorem lifted {x y : Eval α} {G : α → Prop} (hxy : Eval.Meets R x y G)
    (hc : R.Ahead 0 c) :
    Reading.Meets R (liftM x : Reading α) (liftM y) c fun a c' => G a ∧ R.Ahead 0 c' := by
  refine (Reading.Meets.lift hxy).mono ?_
  rintro a c' ⟨ha, rfl⟩
  exact ⟨ha, hc⟩

omit h in
/-- Rounds that each execute a block. -/
private theorem rounds {round round' : Nat → Eval (Option Value)}
    (hround : ∀ i, Eval.Meets R (round i) (round' i) fun v? => ∀ v ∈ v?, v.Has R.Body)
    (hc : R.Ahead 0 c) (count : Nat) :
    Reading.Meets R
      (liftM (Eval.iterate (fun i => return (← round i).map .returned) (return .done) 0 count) :
        Reading Outcome)
      (liftM (Eval.iterate (fun i => return (← round' i).map .returned) (return .done) 0 count)) c
      fun outcome c' => outcome.Has R.Body ∧ R.Ahead 0 c' := by
  refine lifted (.iterate (fun i => ?_) (.pure trivial) 0 count) hc
  exact .bind (hround i) fun v? hv => .pure (Outcome.has_map_returned hv)

theorem arms :
    Reading.Complies R (Reading.arms self) (Reading.arms self') fun v? => ∀ v ∈ v?, v.Has R.Body := by
  intro c hc
  -- the condition, and then the brace that opens the block
  refine .bind (h.value hc) fun condition c₁ hcondition => ?_
  refine .expect hcondition.2 fun c₂ hbrace => ?_
  have hc₂ := R.opened hcondition.2 hbrace
  split
  -- it holds: the block is evaluated and the other arms are skipped
  · refine .bind (.scan (.block hc₂)) fun body c₃ hbody => ?_
    refine .bind (lifted (h.block hbody.2.1) hbody.2.2) fun v? c₄ hv => ?_
    cases v? with
    | some v => exact .pure hv
    | none => exact .bind (.scan (.skipArms hv.2)) fun _ c₅ hc₅ => .pure ⟨by simp, hc₅⟩
  -- it does not hold: the block is skipped, and `else` decides what comes next
  · refine .bind (.scan (.skipBlock hc₂)) fun _ c₃ hc₃ => ?_
    refine .accept (fun c₄ helse => ?_) (.pure ⟨by simp, hc₃⟩)
    have hc₄ := R.plain hc₃ helse (by simp) (by simp)
    refine .accept (fun c₅ hif => ?_) ?_
    · exact h.phrase .arms (R.plain hc₄ hif (by simp) (by simp))
    · exact braced hc₄ fun body c₅ _ hbody hc₅ => lifted (h.block hbody) hc₅

/-! ### Constructs -/

omit h in
/-- A construct that begins with a keyword. -/
private theorem after (keyword : Keyword) {x y : Reading Outcome} {G : Outcome → Prop}
    (hdeclined : G .declined) (hxy : Reading.Complies R x y G) :
    Reading.Complies R (Reading.after keyword x) (Reading.after keyword y) G := by
  intro c hc
  refine .accept (fun c₁ hreads => ?_) (.pure ⟨hdeclined, hc⟩)
  exact hxy (R.plain hc hreads (by simp) (by simp))

private theorem bound :
    Reading.Complies R (Reading.bound self) (Reading.bound self') fun _ => True := by
  intro c hc
  refine .here (.bind (h.value hc) fun v c₁ hv => ?_)
  cases v.number? with
  | some n => exact .pure ⟨trivial, hv.2⟩
  | none => exact .raiseAt rfl (R.here hc (.nil c))

private theorem counted :
    Reading.Complies R (Reading.counted self) (Reading.counted self') (Outcome.Has R.Body) := by
  refine after _ trivial fun c hc => .bind (h.bound hc) fun count c₁ hc₁ => ?_
  refine braced hc₁.2 fun body c₂ _ hbody hc₂ => ?_
  exact rounds (fun _ => h.block hbody) hc₂ _

private theorem whileLoop (fuel : Nat) :
    Reading.Complies R (Reading.whileLoop self fuel) (Reading.whileLoop self' fuel)
      (Outcome.Has R.Body) := by
  intro c hc
  refine .accept (fun c₁ hwhile => ?_) (.pure ⟨trivial, hc⟩)
  have hc₁ := R.plain hc hwhile (by simp) (by simp)
  -- the tokens of condition and block are taken once, before any round
  refine .bind (.scan (.untilBrace hc₁ _)) fun condition c₂ hcondition => ?_
  refine .bind (.scan (.block hcondition.2)) fun body c₃ hbody => ?_
  refine lifted (.iterate (fun _ => ?_) .starve 0 fuel) hbody.2.2
  -- the condition is read again in every round
  refine .bind (P := fun _ => True) ?_ fun holds _ => ?_
  · have hstart := R.condition hc hwhile hcondition.1
    refine Reading.Meets.onTokens (.bind (h.value hstart) fun v c₄ hv => .peek ?_)
    cases hpeek : c₄.peek with
    | some extra => exact .raiseAt rfl (R.peeked hv.2 hpeek)
    | none => exact .pure trivial
  -- a round ends the loop, goes on, or returns
  · split
    · exact .bind (h.block hbody.2.1) fun v? hv => .pure (Outcome.has_map_returned hv)
    · exact .pure (by simp [Outcome.Has])

private theorem rangeRound {body : List Token} (hbody : R.Block body) (name? : Option String)
    (i : Number) :
    Eval.Meets R (Eval.rangeRound self name? body i) (Eval.rangeRound self' name? body i)
      fun v? => ∀ v ∈ v?, v.Has R.Body := by
  refine .inScope ?_
  cases name? with
  | some name => exact .bind (.define trivial) fun _ _ => h.body hbody
  | none => exact h.body hbody

private theorem range :
    Reading.Complies R (Reading.range self) (Reading.range self') (Outcome.Has R.Body) := by
  -- both bounds are evaluated first
  refine after _ trivial fun c hc => .bind (h.bound hc) fun first c₁ hc₁ => ?_
  refine .expect hc₁.2 fun c₂ hto => ?_
  refine .bind (h.bound (R.plain hc₁.2 hto (by simp) (by simp))) fun limit c₃ hc₃ => ?_
  -- with and without a name for the number, the rounds are the same
  have hrounds : ∀ (name? : Option String) {c : Cursor}, R.Ahead 0 c →
      Reading.Meets R
        (do
          Reading.expect (.symbol .leftBrace) "`\x7b` after range"
          let body ← Reading.scan Scan.block
          Eval.iterate (fun k => do
            return (← Eval.rangeRound self name? body (Int64.ofInt (first.toInt + k))).map
              Outcome.returned) (return .done) 0 (limit.toInt - first.toInt).toNat)
        (do
          Reading.expect (.symbol .leftBrace) "`\x7b` after range"
          let body ← Reading.scan Scan.block
          Eval.iterate (fun k => do
            return (← Eval.rangeRound self' name? body (Int64.ofInt (first.toInt + k))).map
              Outcome.returned) (return .done) 0 (limit.toInt - first.toInt).toNat) c
        fun outcome c' => outcome.Has R.Body ∧ R.Ahead 0 c' := by
    intro name? c hc
    refine braced hc fun body c' _ hbody hc' => ?_
    exact rounds (fun k => h.rangeRound hbody name? _) hc' _
  -- a name for the number stands behind `with`
  refine .accept (fun c₄ hwith => ?_) (hrounds none hc₃.2)
  have hc₄ := R.plain hc₃.2 hwith (by simp) (by simp)
  exact .bind (.map (.scan (.identifier hc₄ _))) fun name? c₅ hc₅ => hrounds name? hc₅

private theorem declared (isFinal : Bool) :
    Reading.Complies R (Reading.declared self isFinal) (Reading.declared self' isFinal)
      (Outcome.Has R.Body) := by
  intro c hc
  refine .here (.bind (.scan (.identifier hc _)) fun name c₁ hc₁ => ?_)
  refine .bind (.scan (.typed hc₁)) fun type c₂ hc₂ => .expect hc₂ fun c₃ hequal => ?_
  refine .bind (h.value (R.plain hc₂ hequal (by simp) (by simp))) fun v c₄ hv => ?_
  refine .bind (.locate (R.here hc (.nil c)) (lifted (.define hv.1) hv.2)) fun _ c₅ hc₅ => ?_
  exact .pure ⟨trivial, hc₅.2⟩

omit h in
private theorem functionDeclaration :
    Reading.Complies R Reading.functionDeclaration Reading.functionDeclaration
      (Outcome.Has R.Body) := by
  refine after _ trivial fun c hc => .here ?_
  refine .bind (.scan (.identifier hc _)) fun name c₁ hc₁ => .expect hc₁ fun c₂ hparen => ?_
  refine .bind (.scan (.parameters (R.plain hc₁ hparen (by simp) (by simp))))
    fun parameters c₃ hc₃ => ?_
  refine .bind (.scan (.typed hc₃)) fun returns c₄ hc₄ => ?_
  refine braced hc₄ fun body c₅ hbody _ hc₅ => ?_
  refine .bind (.locate (R.here hc (.nil c)) (lifted (.declareFunction hbody) hc₅))
    fun _ c₆ hc₆ => ?_
  exact .pure ⟨trivial, hc₆.2⟩

/-- Every construct. -/
theorem attempt (fuel : Nat) (construct : Construct) :
    Reading.Complies R (Reading.attempt self fuel construct) (Reading.attempt self' fuel construct)
      (Outcome.Has R.Body) := by
  -- each handler leaves what is ahead in order, whether it declines or not
  cases construct with
  | comment =>
    intro c hc
    refine .getting ?_
    split
    · exact .bind (.scan (.comments hc)) fun _ _ hc' => .pure ⟨trivial, hc'⟩
    · exact .bind (.scan (.comments hc)) fun _ _ hc' => .pure ⟨trivial, hc'⟩
    · exact .pure ⟨trivial, hc⟩
  | assertion =>
    refine after _ trivial fun c hc => .getting (.bind (h.value hc) fun v c₁ hv => ?_)
    split
    · exact .pure ⟨trivial, hv.2⟩
    · exact .getting (.raiseAt rfl (R.here hc (.nil c)))
  | counted => exact h.counted
  | whileLoop => exact h.whileLoop fuel
  | range => exact h.range
  | conditional =>
    refine after _ trivial fun c hc => .bind (h.phrase .arms hc) fun v? c₁ hv => ?_
    exact .pure ⟨Outcome.has_ofReturn hv.1, hv.2⟩
  | variableDeclaration =>
    intro c hc
    -- `val` and `var` differ in what is kept of the variable only
    refine .accept (fun c₁ hreads => ?_) (after _ trivial (h.declared true) hc)
    exact h.declared false (R.plain hc hreads (by simp) (by simp))
  | functionDeclaration => exact functionDeclaration
  | expression =>
    intro c hc
    refine .peek ?_
    -- where nothing begins an expression, nothing is read
    cases c.peek with
    | none => exact .pure ⟨trivial, hc⟩
    | some token =>
      simp only
      split
      · exact .bind (h.value hc) fun _ _ hv => .pure ⟨trivial, hv.2⟩
      · exact .pure ⟨trivial, hc⟩

theorem firstOf (fuel : Nat) (constructs : List Construct) :
    Reading.Complies R (Reading.firstOf self fuel constructs) (Reading.firstOf self' fuel constructs)
      (Outcome.Has R.Body) := by
  induction constructs with
  | nil => exact fun c hc => .pure ⟨trivial, hc⟩
  | cons construct others ih =>
    intro c hc
    refine .bind (h.attempt fuel construct hc) fun outcome c₁ houtcome => ?_
    cases outcome with
    | declined => exact ih houtcome.2
    | done => exact .pure houtcome
    | returned v => exact .pure houtcome

/-! ### Statements -/

private theorem returned {token : Token} (hc : R.Ahead 0 c)
    (hfront : c.front = some token) (hkind : token.kind = .keyword .returnKw) :
    Reading.Meets R (Reading.returned self token.span) (Reading.returned self' token.span) c
      fun v c' => v.Has R.Body ∧ R.Ahead 0 c' := by
  refine .session fun s hs => ?_
  have hplain : c.atComment = false := by simp [Cursor.atComment, hfront, hkind, Kind.isPlain]
  -- `return` is in front, so it is next as well
  have hahead : c.ahead = some (.keyword .returnKw) := by
    rw [Cursor.ahead, Cursor.next?_of_front hfront hplain, Option.map_some, hkind]
  have hplace := R.front hc hfront
  -- at the root `return` is a fault; elsewhere it may stand alone
  split
  · exact .raiseAt rfl hplace
  · refine .step hahead fun _ c₁ hreads => ?_
    have hc₁ := R.plain hc hreads (by simp) (by simp)
    refine .getting ?_
    split
    · exact .pure ⟨trivial, hc₁⟩
    · exact .locate hplace (h.value hc₁)

/-- Statements, if those behind the first one meet the contract. -/
theorem statements (fuel : Nat) (paced : Bool) (hstart : c.rest = [] ∨ R.Ahead 0 c)
    {P : Cursor → Prop}
    (hlands : Reading.Lands (Reading.firstOf self fuel Construct.chain) c fun outcome c' =>
      outcome = .done → P c')
    (hnext : ∀ c', R.Ahead 0 c' → P c' →
      Reading.Meets R (self (.statements true)) (self' (.statements true)) c'
        fun v? _ => ∀ v ∈ v?, v.Has R.Body) :
    Reading.Meets R (Reading.statements self fuel paced) (Reading.statements self' fuel paced) c
      fun v? _ => ∀ v ∈ v?, v.Has R.Body := by
  refine .getting ?_
  -- at the end of the list nothing is ahead, so nothing has to be known of what is
  cases hfront : c.front with
  | none => exact .pure (by simp)
  | some token =>
    have hc : R.Ahead 0 c := by
      refine hstart.resolve_left fun hempty => ?_
      rw [Cursor.front, hempty] at hfront
      cases hfront
    have hplace := R.front hc hfront
    -- with and without a pause in front, the rest is the same
    have hdispatch : Reading.Meets R (Reading.dispatched self fuel token)
        (Reading.dispatched self' fuel token) c fun v? _ => ∀ v ∈ v?, v.Has R.Body := by
      -- the handlers first, and then the statements behind, if they have come to an end
      refine .bind (.locate hplace ((h.firstOf fuel _ hc).landing hlands)) fun outcome c₁ h₁ => ?_
      cases outcome with
      | declined => exact .raiseAt rfl hplace
      | done => exact hnext c₁ h₁.1.2 (h₁.2 rfl)
      | returned v => exact .pure (by simpa [Outcome.Has] using h₁.1.1)
    simp only
    -- a brace that nothing opened, a `return`, or a statement
    split
    · rename_i hkind
      exact Eval.Meets.throw (R.unmatchedBrace hc hfront hkind) (R.change_of_nil rfl)
    · rename_i hkind
      exact .map ((h.returned hc hfront hkind).mono fun v c' hv => by simpa using hv.1)
    · cases paced with
      | true =>
        refine .bind (.lift (.modifying fun s hs => hs.pace)) ?_
        rintro _ c' ⟨-, rfl⟩
        exact hdispatch
      | false => exact hdispatch

/-- The rule for every phrase, if statements meet the contract wherever they begin. -/
theorem rule (hstatements : (Phrase.statements true).Complies R (self (.statements true))
      (self' (.statements true))) (fuel : Nat) (phrase : Phrase α) :
    phrase.Complies R (phrase.rule self fuel) (phrase.ruleWith call' self' fuel) := by
  -- every phrase by the lemma for its kind
  cases phrase with
  | expression => exact h.logical
  | additive => exact h.additive
  | multiplicative => exact h.multiplicative
  | unary => exact h.unary
  | arguments => exact h.arguments
  | arms => exact h.arms
  | statements paced =>
    exact fun c hstart => h.statements fuel paced hstart (fun _ _ _ _ _ _ => trivial)
      fun c' hc' _ => hstatements (.inr hc')

/-- A run of some tokens. -/
theorem run {s : Session} (hs : R.Holds s.fresh) {tokens : List Token}
    (htokens : R.Block tokens) :
    R.Ends (Value.Has R.Body)
      ((do return (← Reading.onTokens tokens (self (.statements false))).getD .void : Eval Value)
        s.fresh)
      ((do return (← Reading.onTokens tokens (self' (.statements false))).getD .void : Eval Value)
        s.fresh) := by
  have hlist := h.phrase (.statements false) htokens
  exact Eval.Meets.bind hlist (fun _ hv => .pure (Value.has_getD hv)) s.fresh hs

end Compliant

/-- What can be said of an evaluation that is made from outside. -/
structure Contract.Kept (R : Contract) (Q : α → Prop) (result : Except Halt α × Session) :
    Prop where
  ok : ∀ a, result.1 = .ok a → Q a
  fault : ∀ f, result.1 = .error (.fault f) → R.Raised f
  session : R.Holds result.2

theorem Contract.Ends.kept {Q : α → Prop} {s : Session} {x y : Eval α} (h : R.Ends Q (x s) (y s)) :
    R.Kept Q (s.evaluate x) := by
  unfold Session.evaluate
  generalize x s = r at h
  generalize y s = r' at h
  -- what is kept is read off the end of the first evaluation, and both end alike
  cases h with
  | ok ha ht =>
    refine ⟨fun a heq => ?_, nofun, ht⟩
    cases heq
    exact ha
  | fault hf ht =>
    refine ⟨nofun, fun f heq => ?_, ht⟩
    cases heq
    exact hf
  | starved ht => exact ⟨nofun, nofun, ht⟩

/-! ### Calls -/

/-- Runs `x` as the body of a function like `Eval.inCall`, with another change to the faults that
leave it. -/
def Eval.inCallWith (leave : Fault → Fault) (x : Eval α) : Eval α := do
  modify fun session => { session with callDepth := session.callDepth + 1 }
  EStateM.adaptExcept (Halt.mapFault leave) <|
    afterwards x fun session => { session with callDepth := session.callDepth - 1 }

/-- A body may be under another contract than its call. The contracts have to agree on the session
when the function is entered and left, and on what becomes of a fault on its way out. -/
theorem Eval.Meets.inside {R' : Contract} {name : String} {leave : Fault → Fault} {x y : Eval α}
    {Q : α → Prop} (h : Eval.Meets R x y Q)
    (henter : ∀ {s : Session}, R'.Holds s → R.Holds { s with callDepth := s.callDepth + 1 })
    (hleave : ∀ {s : Session}, R.Holds s → R'.Holds { s with callDepth := s.callDepth - 1 })
    (hfault : ∀ {f : Fault}, R.Raised f →
      R'.Raised (f.leaving name) ∧ leave (R.change f) = R'.change (f.leaving name)) :
    Eval.Meets R' (Eval.inCall name x) (Eval.inCallWith leave y) Q := by
  intro s hs
  have hends := h _ (henter hs)
  show R'.Ends Q (EStateM.adaptExcept _ (Eval.afterwards x _) _)
    (EStateM.adaptExcept _ (Eval.afterwards y _) _)
  -- both bodies begin one call deeper, and end one call less deep
  simp only [EStateM.adaptExcept, Eval.afterwards]
  generalize x { s with callDepth := s.callDepth + 1 } = r at hends
  generalize y { s with callDepth := s.callDepth + 1 } = r' at hends
  cases hends with
  | ok ha ht => exact .ok ha (hleave ht)
  | starved ht => exact .starved (hleave ht)
  -- the names are added on both sides, in whatever way each of them does it
  | fault hf ht =>
    obtain ⟨hraised, hsame⟩ := hfault hf
    simp only [Halt.mapFault, hsame]
    exact .fault hraised (hleave ht)

/-! ### Contracts that do not care about calls -/

/-- The contract does not care how many calls are active, nor which functions a fault leaves. -/
structure Contract.Indifferent (R : Contract) : Prop where
  body : ∀ {tokens}, R.Body tokens → R.Block tokens
  counts : ∀ calls settings, R.Counts calls settings
  limit : ∀ limit, R.Raised { cause := .recursionLimit limit }
  leaving : ∀ {fault} (name), R.Raised fault → R.Raised (fault.leaving name)
  change : ∀ fault, R.change fault = fault

namespace Contract.Indifferent

variable (hR : R.Indifferent)

include hR

theorem inCall (name : String) {x y : Eval α} {Q : α → Prop} (h : Eval.Meets R x y Q) :
    Eval.Meets R (Eval.inCall name x) (Eval.inCall name y) Q := by
  have hcalls : ∀ {s : Session} (calls : Nat), R.Holds s → R.Holds { s with callDepth := calls } :=
    fun _ hs => ⟨hs.env, hs.routines, hR.counts _ _⟩
  refine h.inside (hcalls _) (hcalls _) fun hf => ⟨hR.leaving name hf, ?_⟩
  rw [hR.change, hR.change]

/-- A call, if the phrases in the body meet the contract. -/
theorem call {self self' : Evaluator} (hself : ∀ {α : Type} (phrase : Phrase α),
      phrase.CompliesInside R (self phrase) (self' phrase))
    (function : Callable) (arguments : List Value) (hbody : function.body.Has R.Body)
    (harguments : ∀ v ∈ arguments, v.Has R.Body) :
    Eval.Meets R (Eval.call self function arguments) (Eval.call self' function arguments)
      (Value.Has R.Body) := by
  unfold Eval.call
  -- a routine of the host, with or without a check of the arguments, or a body
  split
  · exact .native harguments
  · exact .bind (.check _ _) fun _ _ => .native harguments
  · rename_i tokens htokens
    rw [htokens] at hbody
    refine .bind (.check _ _) fun _ _ => .getting fun s hs => ?_
    -- the limit is asked on both sides, in the same session
    split
    · exact .throw (hR.limit _) (hR.change _)
    · have hscope := (hself (.statements true) (hR.body hbody)).body function.parameters harguments
      exact .bind (hR.inCall _ hscope) fun v? hv => .pure (Value.has_getD hv)

end Contract.Indifferent

/-- Without fuel all contracts are met. -/
theorem Phrase.starved_complies (phrase : Phrase α) :
    phrase.Complies R (throw .outOfFuel) (throw .outOfFuel) := by
  cases phrase <;> exact fun _ _ => Eval.Meets.starve

/-- Evaluation meets every contract that does not care about calls. -/
theorem Phrase.compliant (hR : R.Indifferent) (fuel : Nat) :
    Compliant R (run fuel) (run fuel) (Eval.call (run fuel)) := by
  have hphrase : ∀ {α : Type} (phrase : Phrase α),
      phrase.Complies R (run fuel phrase) (run fuel phrase) := by
    -- on fuel; calls are part of every step, so they are derived from the phrases each time
    induction fuel with
    | zero => exact starved_complies
    | succ fuel ih =>
      intro α phrase
      have hcompliant : Compliant R (run fuel) (run fuel) (Eval.call (run fuel)) :=
        ⟨fun phrase => (ih phrase).inside, hR.call fun phrase => (ih phrase).inside⟩
      have hrule := hcompliant.rule (ih (.statements true)) fuel phrase
      rw [Phrase.ruleWith_call] at hrule
      exact hrule
  exact ⟨fun phrase => (hphrase phrase).inside, hR.call fun phrase => (hphrase phrase).inside⟩

end Tern
