import Tern.Proofs.Alignment
import Tern.Proofs.Expression.Soundness

/-!
# The rules of evaluation respect agreement

Every rule of evaluation does the same at corresponding cursors in sessions that count as the
same, provided that the phrases inside do. So a comparison of two runs is proved by an induction
on fuel whose step is this file.

Comments are the exception: they are read differently at the start of a statement than anywhere
else, so a comparison that allows for different comments has to deal with the start of statements
itself.

## Key results

- `Alignment.callWith`, `Alike.call`: calls of functions
- `Alike.logical`, `Alike.arguments`, `Alike.arms`: the rules for expressions and conditionals
- `Alike.attempt`: the constructs of the language, comments excepted
- `Alike.ruleBy`: every phrase, with statements left open
-/

namespace Tern

open Cursor (Reads)

variable {A : Alignment}

/-! ### Values -/

namespace Tolerance

variable {T : Tolerance}

theorem Values.refl (v : Value) : T.Values v v := rfl

theorem Values.isTruthy {v w : Value} (h : T.Values v w) : v.isTruthy = w.isTruthy := by
  simpa using congrArg Value.isTruthy h

theorem Values.number? {v w : Value} (h : T.Values v w) : v.number? = w.number? := by
  simpa using congrArg Value.number? h

theorem Values.typeName {v w : Value} (h : T.Values v w) : v.typeName = w.typeName := by
  simpa using congrArg Value.typeName h

/-- Values that count as the same are the same, unless they are functions. -/
theorem Values.function_cases {v w : Value} (h : T.Values v w) :
    (∃ f g, v = .function f ∧ w = .function g ∧ f.viewed T.view = g.viewed T.view) ∨
      (v = w ∧ ∀ f, v ≠ .function f) := by
  -- values that look the same are functions both, or the same
  cases v with
  | function f =>
    cases w with
    | function g => exact .inl ⟨f, g, rfl, rfl, Value.function.inj h⟩
    | _ => cases h
  | _ =>
    cases w with
    | function g => cases h
    | _ =>
      refine .inr ⟨h, ?_⟩
      intro f hf
      cases hf

/-- Operators give the same on values that count as the same. -/
theorem Values.apply {op : BinaryOp} {v v' w w' : Value} (h : T.Values v v')
    (h' : T.Values w w') : op.apply v w = op.apply v' w' := by
  rw [← BinaryOp.apply_viewed T.view, h, h', BinaryOp.apply_viewed]

theorem Values.applyUnary {op : UnaryOp} {v v' : Value} (h : T.Values v v') :
    op.apply v = op.apply v' := by
  rw [← UnaryOp.apply_viewed T.view, h, UnaryOp.apply_viewed]

theorem Lists.cons {v w : Value} {vs ws : List Value} (h : T.Values v w) (hs : T.Lists vs ws) :
    T.Lists (v :: vs) (w :: ws) := by
  unfold Lists
  rw [List.map_cons, List.map_cons, h, hs]

end Tolerance

namespace Eval.Agree

variable {T : Tolerance} {R : α → β → Prop}

/-- The same cause. -/
theorem raise (cause : Cause) : Agree T R (Eval.raise cause) (Eval.raise cause) :=
  .fault (.of_cause fun _ => rfl)

/-- The same result or cause. -/
theorem orRaise {R : α → α → Prop} (x : Except Cause α) (h : ∀ a, R a a) :
    Agree T R (Eval.orRaise x) (Eval.orRaise x) := by
  cases x with
  | ok a => exact .pure (h a)
  | error cause => exact .raise cause

/-- Binding parameters to arguments. -/
theorem bindParameters (parameters : List Parameter) {vs ws : List Value} (h : T.Lists vs ws) :
    Agree T (fun _ _ => True) (Eval.bindParameters parameters vs)
      (Eval.bindParameters parameters ws) := by
  -- along the parameters, while arguments are left on both sides
  induction parameters generalizing vs ws with
  | nil => exact .pure trivial
  | cons parameter parameters ih =>
    cases vs with
    | nil =>
      cases ws with
      | nil => exact .pure trivial
      | cons w ws => cases h
    | cons v vs =>
      cases ws with
      | nil => cases h
      | cons w ws =>
        obtain ⟨hvalue, hrest⟩ : T.Values v w ∧ T.Lists vs ws := List.cons.inj h
        exact .bind (.define _ (congrArg (Variable.mk true parameter.type) hvalue))
          fun _ _ _ => ih hrest

/-- Stepping a variable up or down. -/
theorem step (name : String) {b b' : Variable} (hb : b.viewed T.view = b'.viewed T.view)
    (increment : Bool) :
    Agree T T.Values (Eval.step name b increment) (Eval.step name b' increment) := by
  have hvalue : T.Values b.value b'.value := congrArg Variable.value hb
  have hfinal : b.isFinal = b'.isFinal := by simpa using congrArg Variable.isFinal hb
  unfold Eval.step
  -- it is asked whether the variable may change, whether it is a number, and whether the step fits
  rw [hfinal, hvalue.number?, hvalue.typeName]
  split
  · exact .raise _
  · split
    · exact .raise _
    · split
      · exact .raise _
      · exact .bind (.assign name (.refl _)) fun _ _ _ => .pure hvalue

/-- Declaring functions whose bodies look the same. -/
theorem declareFunction (name : String) (parameters : List Parameter) (returns : Option Ty)
    {xs ys : List Token} (hview : T.view xs = T.view ys) :
    Agree T (fun _ _ => True) (Eval.declareFunction name parameters returns xs)
      (Eval.declareFunction name parameters returns ys) := by
  refine .bind .get fun s t hst => ?_
  rw [hst.nextId]
  refine .bind (.modify fun _ _ hst' => { hst' with nextId := rfl }) fun _ _ _ => .define name ?_
  simp only [Variable.viewed, Value.viewed, Callable.viewed, Body.viewed, hview]

end Eval.Agree

/-! ### Routines -/

/-- The routines of the language do not look into functions. -/
private theorem Native.run_viewed (view : List Token → List Token) {routine : Native}
    (hhost : ∀ slot, routine ≠ .host slot) (vs : List Value) :
    routine.run (vs.map (·.viewed view)) = routine.run vs := by
  -- a message is the text of the second argument, where there is one
  have hmessage : ∀ default, checkMessage (vs.map (·.viewed view)) default =
      checkMessage vs default := by
    intro default
    -- without a second argument the message is the default one
    rcases vs with _ | ⟨v, _ | ⟨w, vs⟩⟩
    · rfl
    · rfl
    · exact Value.display_viewed view w
  -- `print` and its kin look at texts only, and checks at whether a value is there or holds
  cases routine with
  | print | println => simp [Native.run, joinArguments, Function.comp_def]
  | checkNotNull | checkArgument =>
    cases vs with
    | nil => rfl
    | cons v vs =>
      simp only [Native.run, hmessage]
      rcases v with _ | _ | (_ | _) | _ | _ <;> rfl
  | host slot => exact absurd rfl (hhost slot)

/-- A change of the session that concerns the outside only. -/
private theorem outside_agree {f : Session → Session}
    (hsame : ∀ u, (f u).env = u.env ∧ (f u).callDepth = u.callDepth ∧ (f u).nextId = u.nextId ∧
      (f u).routines = u.routines)
    (houtside : ∀ {s t}, A.Sessions s t →
      A.outside (f s).settings (f s).transcript (f t).settings (f t).transcript) :
    Eval.Agree A.toTolerance (fun _ _ => True) (modify f) (modify f) := by
  refine .modify fun s t hst => ?_
  -- the function leaves alone all that is compared
  obtain ⟨henv, hdepth, hid, hroutines⟩ := hsame s
  obtain ⟨henv', hdepth', hid', hroutines'⟩ := hsame t
  exact {
    env := by rw [henv, henv', hst.env]
    outside := houtside hst
    callDepth := by rw [hdepth, hdepth', hst.callDepth]
    nextId := by rw [hid, hid', hst.nextId]
    routines := by rw [hroutines, hroutines', hst.routines]
    respected := by rw [hroutines]; exact hst.respected }

/-- Printing. -/
private theorem print_agree (text : String) :
    Eval.Agree A.toTolerance (fun _ _ => True) (modify (·.print text)) (modify (·.print text)) := by
  refine outside_agree (fun u => ?_) fun hst => A.print text hst.outside
  unfold Session.print
  split <;> exact ⟨rfl, rfl, rfl, rfl⟩

/-- Pausing concerns the outside only. -/
theorem Session.pace_same (u : Session) : u.pace.env = u.env ∧ u.pace.callDepth = u.callDepth ∧
    u.pace.nextId = u.nextId ∧ u.pace.routines = u.routines := by
  unfold Session.pace
  split
  · split <;> exact ⟨rfl, rfl, rfl, rfl⟩
  · exact ⟨rfl, rfl, rfl, rfl⟩

/-- Pausing. -/
theorem Alignment.pausing (A : Alignment) :
    Eval.Agree A.toTolerance (fun _ _ => True) (modify Session.pace) (modify Session.pace) :=
  outside_agree Session.pace_same fun hst => A.pace hst.env hst.outside

/-- A routine of the host. -/
private theorem host_agree (slot : Nat) {vs ws : List Value} (h : A.Lists vs ws) :
    Eval.Agree A.toTolerance A.Values ((Native.host slot).run vs) ((Native.host slot).run ws) := by
  refine .bind .get fun s t hst => ?_
  -- the slots name the same routines in both sessions
  rw [← hst.routines]
  -- a slot that names no routine answers nothing
  cases hslot : s.routines[slot]? with
  | none => exact .pure (.refl .void)
  | some routine =>
    have hrespects := hst.respected routine (Array.mem_of_getElem? hslot) vs ws h
    simp only
    -- the routine answers both or refuses both
    cases hv : routine vs with
    | ok v =>
      cases hw : routine ws with
      | ok w =>
        rw [hv, hw] at hrespects
        exact .pure hrespects
      | error g =>
        rw [hv, hw] at hrespects
        exact hrespects.elim
    | error f =>
      cases hw : routine ws with
      | ok w =>
        rw [hv, hw] at hrespects
        exact hrespects.elim
      | error g =>
        rw [hv, hw] at hrespects
        exact .fault hrespects

/-- Routines do the same on arguments that count as the same. -/
theorem Alignment.native (A : Alignment) (routine : Native) {vs ws : List Value}
    (h : A.Lists vs ws) :
    Eval.Agree A.toTolerance A.Values (routine.run vs) (routine.run ws) := by
  -- routines of the host are as the tolerance has them
  by_cases hhost : ∃ slot, routine = .host slot
  · obtain ⟨slot, rfl⟩ := hhost
    exact host_agree slot h
  · have hhost : ∀ slot, routine ≠ .host slot := fun slot heq => hhost ⟨slot, heq⟩
    -- the other routines look at the text and the truth of their arguments, not into bodies
    have hsame : routine.run vs = routine.run ws := by
      rw [← Native.run_viewed A.view hhost, h, Native.run_viewed A.view hhost]
    rw [hsame]
    cases routine with
    | print | println => exact .bind (print_agree _) fun _ _ _ => .pure (.refl _)
    | checkNotNull =>
      simp only [Native.run]
      split
      · exact .raise _
      · exact .raise _
      · exact .pure (.refl .void)
    | checkArgument =>
      simp only [Native.run]
      split
      · exact .raise _
      · exact .pure (.refl .void)
      · exact .raise _
      · exact .raise _
    | host slot => exact absurd rfl (hhost slot)

/-- Calls of functions that count as the same agree if the execution of their bodies does. -/
theorem Alignment.callWith (A : Alignment) {execute execute' : List Token → Eval (Option Value)}
    (hbody : ∀ {xs ys}, A.view xs = A.view ys →
      Eval.AgreeAt A.toTolerance false (Option.Rel A.Values) (execute xs) (execute' ys))
    {f g : Callable} (hfg : f.viewed A.view = g.viewed A.view) {vs ws : List Value}
    (hargs : A.Lists vs ws) :
    Eval.Agree A.toTolerance A.Values (Eval.callWith execute f vs)
      (Eval.callWith execute' g ws) := by
  -- the check of the arguments asks for their types, which tell nothing of bodies
  have hcheck : f.check vs = g.check ws := by
    rw [← Callable.check_viewed A.view, hfg, hargs, Callable.check_viewed]
  obtain ⟨id, name, parameters, returns, body⟩ := f
  obtain ⟨id', name', parameters', returns', body'⟩ := g
  simp only [Callable.viewed, Callable.mk.injEq] at hfg
  obtain ⟨-, rfl, rfl, -, hview⟩ := hfg
  unfold Eval.callWith
  cases body with
  | native routine variadic =>
    cases body' with
    | native routine' variadic' =>
      cases hview
      -- a variadic routine takes any arguments
      cases variadic with
      | true => exact A.native routine hargs
      | false =>
        simp only [hcheck]
        exact .bind (.orRaise _ fun _ => Eq.refl ()) fun _ _ _ => A.native routine hargs
    | tokens block' => cases hview
  | tokens block =>
    cases body' with
    | native routine' variadic' => cases hview
    | tokens block' =>
      -- both bodies have to get past the check and the limit
      unfold Eval.enter
      simp only [hcheck]
      refine .bind (.orRaise _ fun _ => Eq.refl ()) fun _ _ _ => .bind .get fun s t hst => ?_
      rw [← A.maxCallDepth hst.outside, ← hst.callDepth]
      split
      · exact .raise _
      · -- the parameters are bound in the scope of the call, which is not the root
        have hscope : Eval.AgreeAt A.toTolerance false (Option.Rel A.Values)
            (Eval.bindParameters parameters vs >>= fun _ => execute block)
            (Eval.bindParameters parameters ws >>= fun _ => execute' block') :=
          .bind (fun s t hst _ => Eval.Agree.bindParameters parameters hargs s t hst)
            (.bindParameters parameters vs) fun _ _ _ => hbody (Body.tokens.inj hview)
        refine .bind (.inCall name (.inScope_of hscope)) fun a b hab => ?_
        cases hab with
        | some hvw => exact .pure hvw
        | none => exact .pure (.refl .void)

/-! ### Operators -/

/-- The result of an operator. -/
private theorem computed_agree {c d : Cursor} (hcd : A.Aligned c d) {span span' : Span}
    (hspan : A.places → span = span') (result : Except Cause Value) :
    Reading.Agree A A.Values (Reading.computed span result) c
      (Reading.computed span' result) d := by
  cases result with
  | ok value => exact .pure (.refl value) hcd
  | error cause => exact .raiseAt cause hspan

/-- Looking for an operator. -/
private theorem operatorAhead_agree {c d : Cursor} (hcd : A.Aligned c d) (tier : Tier) :
    Reading.Agree A (Option.Rel fun p q => p.1 = q.1 ∧ (A.places → p.2 = q.2))
      (Reading.operatorAhead tier) c (Reading.operatorAhead tier) d := by
  refine .bind (.peek hcd) fun a b c' d' hab hcd' => ?_
  cases hab with
  | none => exact .pure .none hcd'
  | @some p q hpq =>
    refine .pure ?_ hcd'
    rw [hpq.1]
    cases tier.operator? q.kind with
    | none => exact .none
    | some op => exact .some ⟨rfl, hpq.2⟩

/-- A tier whose operators group to the right. -/
private theorem rightGrouped_agree {tier : Tier} {operand operand' others others' : Reading Value}
    (hoperand : ∀ {c d}, A.Aligned c d → Reading.Agree A A.Values operand c operand' d)
    (hothers : ∀ {c d}, A.Aligned c d → Reading.Agree A A.Values others c others' d)
    {c d : Cursor} (hcd : A.Aligned c d) :
    Reading.Agree A A.Values (Reading.rightGrouped tier operand others) c
      (Reading.rightGrouped tier operand' others') d := by
  refine .bind (hoperand hcd) fun v w c₁ d₁ hvw hcd₁ => ?_
  refine .bind (operatorAhead_agree hcd₁ tier) fun a b c₂ d₂ hab hcd₂ => ?_
  -- without an operator of the tier the operand is all there is
  cases hab with
  | none => exact .pure hvw hcd₂
  | @some p q hpq =>
    obtain ⟨op, span⟩ := p
    obtain ⟨op', span'⟩ := q
    obtain ⟨rfl, hspan⟩ := hpq
    -- the operator is taken, and the rest is grouped to the right
    refine .bind (.next hcd₂) fun _ _ c₃ d₃ _ hcd₃ => ?_
    refine .bind (hothers hcd₃) fun v' w' c₄ d₄ hvw' hcd₄ => ?_
    simp only [hvw.apply hvw']
    exact computed_agree hcd₄ hspan _

/-! ### Evaluators -/

/-- The results of a phrase that count as the same. -/
def Phrase.Same (T : Tolerance) : Phrase α → α → α → Prop
  | expression | additive | multiplicative | unary => T.Values
  | arguments => T.Lists
  | arms | statements _ => Option.Rel T.Values

/-- Two evaluators that do the same at corresponding cursors, and that read expressions by the
rules of the grammar. -/
structure Alike (A : Alignment) (e e' : Evaluator) : Prop where
  agree : ∀ {α} (phrase : Phrase α) {c d}, A.Aligned c d →
    Reading.Agree A (phrase.Same A.toTolerance) (e phrase) c (e' phrase) d
  sound : Sound e
  sound' : Sound e'

namespace Alike

variable {e e' : Evaluator} (h : Alike A e e') {c d : Cursor}

include h

/-- Executing token sequences that look the same. -/
private theorem body {xs ys : List Token} (hview : A.view xs = A.view ys) :
    Eval.Agree A.toTolerance (Option.Rel A.Values)
      (Reading.onTokens xs (e (.statements true))) (Reading.onTokens ys (e' (.statements true))) :=
  (h.agree (.statements true) (A.start hview)).onTokens

/-- Executing blocks that look the same. -/
theorem block {xs ys : List Token} (hview : A.view xs = A.view ys) :
    Eval.Agree A.toTolerance (Option.Rel A.Values) (Eval.block e xs) (Eval.block e' ys) :=
  .inScope (h.body hview)

/-- Calling functions that count as the same. -/
theorem call {f g : Callable} (hfg : f.viewed A.view = g.viewed A.view) {vs ws : List Value}
    (hargs : A.Lists vs ws) :
    Eval.Agree A.toTolerance A.Values (Eval.call e f vs) (Eval.call e' g ws) := by
  rw [Eval.call_eq, Eval.call_eq]
  exact A.callWith (fun hview s t hst _ => h.body hview s t hst) hfg hargs

/-! ### Expressions -/

/-- The arguments of a call. -/
private theorem callArguments (hcd : A.Aligned c d) :
    Reading.Agree A A.Lists (Reading.callArguments e) c (Reading.callArguments e') d := by
  refine .bind (.accept hcd _) fun a b c' d' hab hcd' => ?_
  subst hab
  cases a with
  | true => exact .pure rfl hcd'
  | false => exact h.agree .arguments hcd'

/-- What a name means. -/
private theorem named (name : String) {span span' : Span} (hspan : A.places → span = span')
    (hcd : A.Aligned c d) :
    Reading.Agree A A.Values (Reading.named e name span) c (Reading.named e' name span') d := by
  unfold Reading.named
  refine .bind (.lift .get hcd) fun s t c₁ d₁ hst hcd₁ => ?_
  have hlookup := hst.lookup name
  generalize s.env.lookup name = found, t.env.lookup name = found' at hlookup
  cases hlookup with
  -- the name is bound on both sides or on neither
  | none => exact .raiseAt _ hspan
  | @some b b' hb =>
    have hvalue : A.Values b.value b'.value := congrArg Variable.value hb
    have hfinal : b.isFinal = b'.isFinal := by simpa using congrArg Variable.isFinal hb
    simp only
    refine .bind (.peekKind hcd₁) fun kind kind' c₂ d₂ hkind hcd₂ => ?_
    -- what follows the name decides: a call, an assignment, `++` or `--`, or nothing of the kind
    subst hkind
    split
    -- a call, where both are functions or both are the same value that is none
    · obtain ⟨f, g, hv, hw, hfg⟩ | ⟨hvw, hne⟩ := hvalue.function_cases
      · simp only [hv, hw]
        refine .bind (.next hcd₂) fun _ _ c₃ d₃ _ hcd₃ => .locate ?_ hspan
        exact .bind (h.callArguments hcd₃) fun vs ws c₄ d₄ hargs hcd₄ =>
          .lift (h.call hfg hargs) hcd₄
      · rw [← hvw]
        split
        · rename_i f hf
          exact absurd hf (hne f)
        · exact .raiseAt _ hspan
    -- an assignment, where both variables may change or neither
    · rw [hfinal]
      split
      · exact .raiseAt _ hspan
      · refine .bind (.next hcd₂) fun _ _ c₃ d₃ _ hcd₃ => ?_
        refine .bind (h.agree .expression hcd₃) fun v w c₄ d₄ hvw hcd₄ => ?_
        exact .bind (.locate (.lift (.assign name hvw) hcd₄) hspan) fun _ _ _ _ _ hcd₅ =>
          .pure hvw hcd₅
    · exact .bind (.next hcd₂) fun _ _ c₃ d₃ _ hcd₃ =>
        .locate (.lift (Eval.Agree.step name hb true) hcd₃) hspan
    · exact .bind (.next hcd₂) fun _ _ c₃ d₃ _ hcd₃ =>
        .locate (.lift (Eval.Agree.step name hb false) hcd₃) hspan
    · exact .pure hvalue hcd₂

/-- A primary. -/
theorem primary (hcd : A.Aligned c d) :
    Reading.Agree A A.Values (Reading.primary e) c (Reading.primary e') d := by
  refine .bind (.here hcd) fun span span' c₁ d₁ hspan hcd₁ => ?_
  refine .bind (.next hcd₁) fun a b c₂ d₂ hab hcd₂ => ?_
  cases hab with
  | none => exact .raiseAt _ hspan
  | @some p q hpq =>
    obtain ⟨kind, place⟩ := p
    obtain ⟨_, place'⟩ := q
    obtain rfl : kind = _ := hpq.1
    -- the same kind of token is next
    cases kind with
    | symbol mark =>
      cases mark with
      | leftParen =>
        refine .bind (h.agree .expression hcd₂) fun v w c₃ d₃ hvw hcd₃ => ?_
        exact .bind (.expect hcd₃ _ _) fun _ _ _ _ _ hcd₄ => .pure hvw hcd₄
      | _ => exact .raiseAt _ hspan
    | keyword word =>
      cases word with
      | trueKw | falseKw => exact .pure (.refl _) hcd₂
      | _ => exact .raiseAt _ hspan
    | str _ | number _ => exact .pure (.refl _) hcd₂
    | ident name => exact h.named _ hspan hcd₂
    | unknown _ | lineComment _ => exact .raiseAt _ hspan

/-- An operand with its unary operators. -/
theorem unary (hcd : A.Aligned c d) :
    Reading.Agree A A.Values (Reading.unary e) c (Reading.unary e') d := by
  refine .bind (.peek hcd) fun a b c₁ d₁ hab hcd₁ => ?_
  cases hab with
  | none => exact h.primary hcd₁
  | @some p q hpq =>
    simp only [hpq.1]
    -- an operator in front takes the operand behind it, another token begins an operand
    split
    · exact h.primary hcd₁
    · refine .bind (.next hcd₁) fun _ _ c₂ d₂ _ hcd₂ => ?_
      refine .bind (h.agree .unary hcd₂) fun v w c₃ d₃ hvw hcd₃ => ?_
      simp only [hvw.applyUnary]
      exact computed_agree hcd₃ hpq.2 _

/-- Factors. -/
theorem multiplicative (hcd : A.Aligned c d) :
    Reading.Agree A A.Values (Reading.multiplicative e) c (Reading.multiplicative e') d :=
  rightGrouped_agree h.unary (h.agree .multiplicative) hcd

/-- Terms. -/
theorem additive (hcd : A.Aligned c d) :
    Reading.Agree A A.Values (Reading.additive e) c (Reading.additive e') d :=
  rightGrouped_agree h.multiplicative (h.agree .additive) hcd

/-- One sum, or two of them compared. -/
theorem comparison (hcd : A.Aligned c d) :
    Reading.Agree A A.Values (Reading.comparison e) c (Reading.comparison e') d := by
  -- one operand, and another one if a comparison follows
  refine .bind (h.additive hcd) fun v w c₁ d₁ hvw hcd₁ => ?_
  refine .bind (operatorAhead_agree hcd₁ .comparison) fun a b c₂ d₂ hab hcd₂ => ?_
  cases hab with
  | none => exact .pure hvw hcd₂
  | @some p q hpq =>
    obtain ⟨op, span⟩ := p
    obtain ⟨op', span'⟩ := q
    obtain ⟨rfl, hspan⟩ := hpq
    refine .bind (.next hcd₂) fun _ _ c₃ d₃ _ hcd₃ => ?_
    refine .bind (h.additive hcd₃) fun v' w' c₄ d₄ hvw' hcd₄ => ?_
    refine .bind (operatorAhead_agree hcd₄ .comparison) fun a b c₅ d₅ hab hcd₅ => ?_
    -- a third operand is refused
    cases hab with
    | none =>
      simp only [hvw.apply hvw']
      exact computed_agree hcd₅ hspan _
    | some hpq => exact .raiseAt _ hpq.2

/-- A whole expression. -/
theorem logical (hcd : A.Aligned c d) :
    Reading.Agree A A.Values (Reading.logical e) c (Reading.logical e') d :=
  rightGrouped_agree h.comparison (h.agree .expression) hcd

/-- One or more arguments. -/
theorem arguments (hcd : A.Aligned c d) :
    Reading.Agree A A.Lists (Reading.arguments e) c (Reading.arguments e') d := by
  refine .bind (h.agree .expression hcd) fun v w c₁ d₁ hvw hcd₁ => ?_
  refine .bind (.accept hcd₁ _) fun a b c₂ d₂ hab hcd₂ => ?_
  subst hab
  cases a with
  | true => exact .pure (.cons hvw rfl) hcd₂
  | false =>
    refine .bind (.expect hcd₂ _ _) fun _ _ c₃ d₃ _ hcd₃ => ?_
    exact .bind (h.agree .arguments hcd₃) fun vs ws _ _ hargs hcd₄ =>
      .pure (.cons hvw hargs) hcd₄

end Alike

/-! ### Statements -/

/-- What a counted loop does behind its keyword. -/
def Reading.repeated (self : Evaluator) : Reading Outcome := do
  let count ← bound self
  expect (.symbol .leftBrace) "`\x7b` after repeat count"
  let body ← scan Scan.block
  Eval.iterate (fun _ => return (← Eval.block self body).map .returned) (return .done)
    0 count.toInt.toNat

/-- Outcomes that count as the same. -/
inductive Tolerance.Outcomes (T : Tolerance) : Outcome → Outcome → Prop
  | declined : Outcomes T .declined .declined
  | done : Outcomes T .done .done
  | returned {v w : Value} : T.Values v w → Outcomes T (.returned v) (.returned w)

/-- The outcomes of blocks. -/
theorem outcomes_ofReturn {T : Tolerance} {a b : Option Value}
    (h : Option.Rel T.Values a b) : T.Outcomes (.ofReturn a) (.ofReturn b) := by
  cases h with
  | some hvw => exact .returned hvw
  | none => exact .done

/-- The outcomes of rounds. -/
private theorem outcomes_map {T : Tolerance} {a b : Option Value}
    (h : Option.Rel T.Values a b) :
    Option.Rel T.Outcomes (a.map .returned) (b.map .returned) := by
  cases h with
  | some hvw => exact .some (.returned hvw)
  | none => exact .none

/-- A construct that begins with a keyword. -/
private theorem after_agree {keyword : Keyword} {x y : Reading Outcome}
    (h : ∀ {c d}, A.Aligned c d → Reading.Agree A A.Outcomes x c y d) {c d : Cursor}
    (hcd : A.Aligned c d) :
    Reading.Agree A A.Outcomes (Reading.after keyword x) c (Reading.after keyword y) d := by
  refine .bind (.accept hcd _) fun a b c₁ d₁ hab hcd₁ => ?_
  subst hab
  cases a with
  | true => exact h hcd₁
  | false => exact .pure .declined hcd₁

namespace Alike

variable {e e' : Evaluator} (h : Alike A e e') {c d : Cursor}

include h

/-- The arms of a conditional. -/
theorem arms (hcd : A.Aligned c d) :
    Reading.Agree A (Option.Rel A.Values) (Reading.arms e) c (Reading.arms e') d := by
  refine .bind (h.agree .expression hcd) fun v w c₁ d₁ hvw hcd₁ => ?_
  refine .bind (.expect hcd₁ _ _) fun _ _ c₂ d₂ _ hcd₂ => ?_
  -- the conditions count as the same, so both take the block or both step over it
  rw [hvw.isTruthy]
  split
  -- the block of this arm, and the other arms are skipped if it comes to its end
  · refine .bind (.scan (Alignment.block hcd₂)) fun xs ys c₃ d₃ hview hcd₃ => ?_
    refine .bind (.lift (h.block hview) hcd₃) fun a b c₄ d₄ hab hcd₄ => ?_
    cases hab with
    | some hvw => exact .pure (.some hvw) hcd₄
    | none =>
      exact .bind (.scan (Alignment.skipArms hcd₄)) fun _ _ _ _ _ hcd₅ => .pure .none hcd₅
  · refine .bind (.scan (Alignment.skipBlock hcd₂)) fun _ _ c₃ d₃ _ hcd₃ => ?_
    -- behind `else` stands another arm, or a block of its own
    refine .bind (.accept hcd₃ _) fun a b c₄ d₄ hab hcd₄ => ?_
    subst hab
    cases a with
    | false => exact .pure .none hcd₄
    | true =>
      refine .bind (.accept hcd₄ _) fun a b c₅ d₅ hab hcd₅ => ?_
      subst hab
      cases a with
      | true => exact h.agree .arms hcd₅
      | false =>
        refine .bind (.expect hcd₅ _ _) fun _ _ c₆ d₆ _ hcd₆ => ?_
        exact .bind (.scan (Alignment.block hcd₆)) fun xs ys c₇ d₇ hview hcd₇ =>
          .lift (h.block hview) hcd₇

/-- `if`. -/
private theorem conditional (hcd : A.Aligned c d) :
    Reading.Agree A A.Outcomes (Reading.conditional e) c (Reading.conditional e') d :=
  after_agree (fun hcd₁ => .bind (h.agree .arms hcd₁) fun _ _ _ _ hab hcd₂ =>
    .pure (outcomes_ofReturn hab) hcd₂) hcd

/-- `assert`: the condition that is quoted reads the same. -/
private theorem assertion (hcd : A.Aligned c d) :
    Reading.Agree A A.Outcomes (Reading.assertion e) c (Reading.assertion e') d := by
  refine after_agree (fun {c₁ d₁} hcd₁ => ?_) hcd
  refine .getting (.landing (h.agree .expression hcd₁) (h.sound.expression c₁)
    (h.sound'.expression d₁) fun v w c₂ d₂ hvw hcd₂ ⟨t, ht⟩ ⟨u, hu⟩ => ?_)
  simp only [hvw.isTruthy]
  split
  · exact .pure .done hcd₂
  · refine .getting ?_
    rw [A.quoted hcd₁ hcd₂ ht.reads hu.reads]
    exact .raiseAt _ (A.here hcd₁)

/-- An expression as a statement. -/
private theorem expressionStatement (hcd : A.Aligned c d) :
    Reading.Agree A A.Outcomes (Reading.expressionStatement e) c
      (Reading.expressionStatement e') d := by
  refine .bind (.peek hcd) fun a b c₁ d₁ hab hcd₁ => ?_
  cases hab with
  | none => exact .pure .declined hcd₁
  | some hpq =>
    simp only [hpq.1]
    split
    · exact .bind (h.agree .expression hcd₁) fun _ _ _ _ _ hcd₂ => .pure .done hcd₂
    · exact .pure .declined hcd₁

/-- A declaration behind `var` or `val`. -/
private theorem declared (isFinal : Bool) (hcd : A.Aligned c d) :
    Reading.Agree A A.Outcomes (Reading.declared e isFinal) c (Reading.declared e' isFinal) d := by
  refine .bind (.here hcd) fun span span' c₁ d₁ hspan hcd₁ => ?_
  refine .bind (.scan (Alignment.identifier hcd₁ _)) fun name name' c₂ d₂ hname hcd₂ => ?_
  refine .bind (.scan (Alignment.typed hcd₂)) fun type type' c₃ d₃ htype hcd₃ => ?_
  subst hname htype
  refine .bind (.expect hcd₃ _ _) fun _ _ c₄ d₄ _ hcd₄ => ?_
  refine .bind (h.agree .expression hcd₄) fun v w c₅ d₅ hvw hcd₅ => ?_
  refine .bind (.locate (.lift (.define name ?_) hcd₅) hspan) fun _ _ _ _ _ hcd₆ =>
    .pure .done hcd₆
  exact congrArg (Variable.mk isFinal type) hvw

/-- `var` and `val`. -/
private theorem variableDeclaration (hcd : A.Aligned c d) :
    Reading.Agree A A.Outcomes (Reading.variableDeclaration e) c
      (Reading.variableDeclaration e') d := by
  refine .bind (.accept hcd _) fun a b c₁ d₁ hab hcd₁ => ?_
  subst hab
  cases a with
  | true => exact h.declared false hcd₁
  | false => exact after_agree (h.declared true) hcd₁

/-- An expression whose value is a number. -/
private theorem bound (hcd : A.Aligned c d) :
    Reading.Agree A Eq (Reading.bound e) c (Reading.bound e') d := by
  refine .bind (.here hcd) fun span span' c₁ d₁ hspan hcd₁ => ?_
  refine .bind (h.agree .expression hcd₁) fun v w c₂ d₂ hvw hcd₂ => ?_
  rw [hvw.number?, hvw.typeName]
  split
  · exact .pure rfl hcd₂
  · exact .raiseAt _ hspan

/-- A counted loop behind its keyword. -/
theorem repeated (hcd : A.Aligned c d) :
    Reading.Agree A A.Outcomes (Reading.repeated e) c (Reading.repeated e') d := by
  refine .bind (h.bound hcd) fun n n' c₁ d₁ hn hcd₁ => ?_
  subst hn
  refine .bind (.expect hcd₁ _ _) fun _ _ c₂ d₂ _ hcd₂ => ?_
  refine .bind (.scan (Alignment.block hcd₂)) fun xs ys c₃ d₃ hview hcd₃ => ?_
  refine .lift (.iterate (fun _ => ?_) (.pure .done) _ _) hcd₃
  exact .bind (h.block hview) fun _ _ hab => .pure (outcomes_map hab)

/-- `repeat`. -/
private theorem counted (hcd : A.Aligned c d) :
    Reading.Agree A A.Outcomes (Reading.counted e) c (Reading.counted e') d :=
  after_agree h.repeated hcd

/-- One round of a `while` loop. -/
private theorem whileRound {xs ys body body' : List Token} (hview : A.view xs = A.view ys)
    (hbody : A.view body = A.view body') :
    Eval.Agree A.toTolerance (Option.Rel A.Outcomes) (Eval.whileRound e xs body)
      (Eval.whileRound e' ys body') := by
  refine .bind (?_ : Eval.Agree A.toTolerance Eq _ _) fun a b hab => ?_
  -- the condition has to be the whole of its tokens
  · refine Reading.Agree.onTokens ?_
    refine .bind (h.agree .expression (A.start hview)) fun v w c₁ d₁ hvw hcd₁ => ?_
    refine .bind (.peek hcd₁) fun p q c₂ d₂ hpq hcd₂ => ?_
    cases hpq with
    | none => exact .pure hvw.isTruthy hcd₂
    | some hpq =>
      simp only [hpq.1]
      exact .raiseAt _ hpq.2
  -- both rounds begin or both end the loop
  · subst hab
    split
    · exact .bind (h.block hbody) fun _ _ hab => .pure (outcomes_map hab)
    · exact .pure (.some .done)

/-- `while`. -/
private theorem whileLoop (hT : A.firstStarves) {fuel fuel' : Nat} (hle : fuel ≤ fuel')
    (hcd : A.Aligned c d) :
    Reading.Agree A A.Outcomes (Reading.whileLoop e fuel) c (Reading.whileLoop e' fuel') d := by
  refine after_agree (fun hcd₁ => ?_) hcd
  refine .bind (.scan (Alignment.untilBrace hcd₁ _)) fun xs ys c₂ d₂ hview hcd₂ => ?_
  refine .bind (.scan (Alignment.block hcd₂)) fun body body' c₃ d₃ hbody hcd₃ => ?_
  exact .lift (.iterate_rounds (fun _ => h.whileRound hview hbody) (.inl ⟨hT, hle⟩) 0) hcd₃

/-- One round of a range loop. -/
private theorem rangeRound (name? : Option String) {xs ys : List Token}
    (hview : A.view xs = A.view ys) (i : Number) :
    Eval.Agree A.toTolerance (Option.Rel A.Values) (Eval.rangeRound e name? xs i)
      (Eval.rangeRound e' name? ys i) := by
  refine .inScope ?_
  cases name? with
  | some name => exact .bind (.define name rfl) fun _ _ _ => h.body hview
  | none => exact h.body hview

/-- The rounds of a range loop. -/
private theorem rounds (first limit : Number) (name? : Option String) (hcd : A.Aligned c d) :
    Reading.Agree A A.Outcomes
      (do
        Reading.expect (.symbol .leftBrace) "`\x7b` after range"
        let body ← Reading.scan Scan.block
        Eval.iterate (fun k => do
          return (← Eval.rangeRound e name? body (Int64.ofInt (first.toInt + k))).map
            Outcome.returned) (return .done) 0 (limit.toInt - first.toInt).toNat) c
      (do
        Reading.expect (.symbol .leftBrace) "`\x7b` after range"
        let body ← Reading.scan Scan.block
        Eval.iterate (fun k => do
          return (← Eval.rangeRound e' name? body (Int64.ofInt (first.toInt + k))).map
            Outcome.returned) (return .done) 0 (limit.toInt - first.toInt).toNat) d := by
  refine .bind (.expect hcd _ _) fun _ _ c₁ d₁ _ hcd₁ => ?_
  refine .bind (.scan (Alignment.block hcd₁)) fun xs ys c₂ d₂ hview hcd₂ => ?_
  refine .lift (.iterate (fun _ => ?_) (.pure .done) _ _) hcd₂
  exact .bind (h.rangeRound name? hview _) fun _ _ hab => .pure (outcomes_map hab)

/-- `from` and `to`. -/
private theorem range (hcd : A.Aligned c d) :
    Reading.Agree A A.Outcomes (Reading.range e) c (Reading.range e') d := by
  refine after_agree (fun hcd₁ => ?_) hcd
  refine .bind (h.bound hcd₁) fun first first' c₂ d₂ hfirst hcd₂ => ?_
  refine .bind (.expect hcd₂ _ _) fun _ _ c₃ d₃ _ hcd₃ => ?_
  refine .bind (h.bound hcd₃) fun limit limit' c₄ d₄ hlimit hcd₄ => ?_
  -- the same bounds, so as many rounds
  subst hfirst hlimit
  -- the name for the number, or none
  refine .bind (.accept hcd₄ _) fun a b c₅ d₅ hab hcd₅ => ?_
  subst hab
  cases a with
  | true =>
    refine .bind (R := Eq) (.map (.scan (Alignment.identifier hcd₅ _)) fun _ _ hname =>
      congrArg some hname) fun name? name?' c₆ d₆ hname hcd₆ => ?_
    subst hname
    exact h.rounds first limit name? hcd₆
  | false => exact h.rounds first limit none hcd₅

omit h in
/-- `def`: the body is kept as it looks. -/
private theorem functionDeclaration (hcd : A.Aligned c d) :
    Reading.Agree A A.Outcomes Reading.functionDeclaration c Reading.functionDeclaration d := by
  refine after_agree (fun hcd₁ => ?_) hcd
  -- name, parameters, type and body are read from the tokens
  refine .bind (.here hcd₁) fun span span' c₂ d₂ hspan hcd₂ => ?_
  refine .bind (.scan (Alignment.identifier hcd₂ _)) fun name name' c₃ d₃ hname hcd₃ => ?_
  refine .bind (.expect hcd₃ _ _) fun _ _ c₄ d₄ _ hcd₄ => ?_
  refine .bind (.scan (Alignment.parameters hcd₄)) fun ps ps' c₅ d₅ hps hcd₅ => ?_
  refine .bind (.scan (Alignment.typed hcd₅)) fun type type' c₆ d₆ htype hcd₆ => ?_
  refine .bind (.expect hcd₆ _ _) fun _ _ c₇ d₇ _ hcd₇ => ?_
  refine .bind (.scan (Alignment.block hcd₇)) fun xs ys c₈ d₈ hview hcd₈ => ?_
  subst hname hps htype
  exact .bind (.locate (.lift (.declareFunction name _ _ hview) hcd₈) hspan)
    fun _ _ _ _ _ hcd₉ => .pure .done hcd₉

/-- Every construct but a comment. -/
theorem attempt (hT : A.firstStarves) {fuel fuel' : Nat} (hle : fuel ≤ fuel')
    {construct : Construct} (hne : construct ≠ .comment) (hcd : A.Aligned c d) :
    Reading.Agree A A.Outcomes (Reading.attempt e fuel construct) c
      (Reading.attempt e' fuel' construct) d := by
  -- comments are left out, since they are not read the same
  cases construct with
  | comment => exact absurd rfl hne
  | assertion => exact h.assertion hcd
  | counted => exact h.counted hcd
  | whileLoop => exact h.whileLoop hT hle hcd
  | range => exact h.range hcd
  | conditional => exact h.conditional hcd
  | variableDeclaration => exact h.variableDeclaration hcd
  | functionDeclaration => exact functionDeclaration hcd
  | expression => exact h.expressionStatement hcd

/-- The value of a `return`. -/
theorem returned {span span' : Span} (hspan : A.places → span = span') (hcd : A.Aligned c d) :
    Reading.Agree A A.Values (Reading.returned e span) c (Reading.returned e' span') d := by
  refine .bind (.lift .get hcd) fun s t c₁ d₁ hst hcd₁ => ?_
  -- whether the scope is the root is not a matter of views
  have hroot : s.env.atRoot = t.env.atRoot := by
    rw [← Environment.atRoot_viewed A.view, hst.env, Environment.atRoot_viewed]
  simp only [hroot]
  split
  · exact .raiseAt _ hspan
  · refine .bind (.next hcd₁) fun _ _ c₂ d₂ _ hcd₂ => .getting ?_
    -- and neither is whether anything stands behind `return`
    have hend : c₂.atEnd = d₂.atEnd := by
      rw [Bool.eq_iff_iff, Cursor.atEnd_iff, Cursor.atEnd_iff, Alignment.ahead_eq hcd₂]
    rw [hend]
    split
    · exact .pure (.refl .void) hcd₂
    · exact .locate (h.agree .expression hcd₂) hspan

omit h in
/-- Offering the tokens ahead to constructs that agree. -/
theorem firstOf {fuel fuel' : Nat} {constructs : List Construct}
    (hall : ∀ construct ∈ constructs, ∀ {c d}, A.Aligned c d →
      Reading.Agree A A.Outcomes (Reading.attempt e fuel construct) c
        (Reading.attempt e' fuel' construct) d) (hcd : A.Aligned c d) :
    Reading.Agree A A.Outcomes (Reading.firstOf e fuel constructs) c
      (Reading.firstOf e' fuel' constructs) d := by
  induction constructs generalizing c d with
  | nil => exact .pure .declined hcd
  | cons construct others ih =>
    refine .bind (hall construct (by simp) hcd) fun a b c₁ d₁ hab hcd₁ => ?_
    cases hab with
    | declined => exact ih (fun k hk => hall k (by simp [hk])) hcd₁
    | done => exact .pure .done hcd₁
    | returned hvw => exact .pure (.returned hvw) hcd₁

end Alike

/-! ### Phrases -/

/-- The rule for each phrase, with the one for statements left open. -/
def Phrase.ruleBy (statements : Bool → Reading (Option Value)) (self : Evaluator) (fuel : Nat) :
    Phrase α → Reading α
  | .statements paced => statements paced
  | phrase => phrase.rule self fuel

/-- The rules of evaluation execute statements by `Reading.statements`. -/
theorem Phrase.ruleBy_statements (self : Evaluator) (fuel : Nat) (phrase : Phrase α) :
    phrase.ruleBy (Reading.statements self fuel) self fuel = phrase.rule self fuel := by
  cases phrase <;> rfl

/-- Every phrase, if statements agree. -/
theorem Alike.ruleBy {e e' : Evaluator} (h : Alike A e e') {fuel fuel' : Nat}
    {x y : Bool → Reading (Option Value)} {c d : Cursor} (hcd : A.Aligned c d)
    (hstatements : ∀ paced, Reading.Agree A (Option.Rel A.Values) (x paced) c (y paced) d)
    (phrase : Phrase α) :
    Reading.Agree A (phrase.Same A.toTolerance) (phrase.ruleBy x e fuel) c
      (phrase.ruleBy y e' fuel') d := by
  cases phrase with
  | expression => exact h.logical hcd
  | additive => exact h.additive hcd
  | multiplicative => exact h.multiplicative hcd
  | unary => exact h.unary hcd
  | arguments => exact h.arguments hcd
  | arms => exact h.arms hcd
  | statements paced => exact hstatements paced

end Tern
