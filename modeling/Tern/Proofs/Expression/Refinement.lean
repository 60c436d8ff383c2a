import Tern.Proofs.Expression.Soundness
import Tern.Proofs.Fuel

/-!
# Evaluating tokens is evaluating the tree

Where a tree stands at the cursor, the evaluation from tokens and the evaluation of the tree agree:
same result, same effects in the same order, same faults. The cursor ends up behind the tree.

Both evaluations hand calls of functions on, so the comparison takes for granted that these agree,
with the fuel that is left where a call happens.

## Key results

- `Tree.Parses.agree`: the two evaluations agree, rule by rule
-/

namespace Tern

open Cursor (Reads)
open Tern.Tree (Parses)

/-! ### Names -/

namespace Eval

/-- What follows a look at a variable. -/
theorem variableNamed_bind (name : String) (k : Variable → Eval α) :
    variableNamed name >>= k = resolve name (raise (.undefinedVariable name)) k := by
  funext s
  unfold variableNamed resolve
  rw [bind_assoc]
  show (get >>= _ : Eval _) s = _
  rw [get_bind]
  cases s.env.lookup name <;> rfl

/-- What follows a look at a function. -/
theorem functionNamed_bind (name : String) (k : Callable → Eval α) :
    functionNamed name >>= k = resolve name (raise (.undefinedVariable name)) fun b =>
      match b.value with
      | .function f => k f
      | other => raise (.typeMismatch Ty.function.name other.typeName) := by
  unfold functionNamed
  rw [bind_assoc, variableNamed_bind]
  congr 1
  funext b
  cases b.value <;> rfl

end Eval

namespace Reading

/-- A name is resolved before anything is done to it. -/
private theorem named_eq (self : Evaluator) (name : String) (span : Span) (c : Cursor) :
    named self name span c = Eval.resolve name (raiseAt span (.undefinedVariable name) c)
      fun b => meaning self name span b c.ahead c := by
  funext s
  unfold Eval.resolve
  cases hb : s.env.lookup name with
  | none => exact named_of_unbound self hb span
  | some b => exact named_of_lookup self hb span

/-- Where an operator of the tier is next. -/
private theorem operatorAhead_of_reads {c c' : Cursor} {op : BinaryOp}
    (h : Reads c [.symbol op.mark] c') (f : Option (BinaryOp × Span) → Reading α) :
    ∃ place, (operatorAhead op.tier >>= f) c = f (some (op, place)) c := by
  obtain ⟨token, c₁, hnext, hkind, -⟩ := h.of_cons
  have hop : op.tier.operator? token.kind = some op :=
    Tier.operator?_eq_some_iff.mpr ⟨hkind, rfl⟩
  refine ⟨token.span, bind_of_pure ?_⟩
  unfold operatorAhead
  rw [peek_bind, c.peek_eq, hnext]
  simp only [Option.map_some, hop]
  rfl

end Reading

/-! ### Rules -/

/-- Results of a form that count as the same. -/
def Form.Same (T : Tolerance) : (form : Form) → form.Result → form.Result → Prop
  | .expression => T.Values
  | .arguments => T.Lists

/-- The evaluator calls functions the way `call` does. -/
def CallsAlike (T : Tolerance) (self : Evaluator) (call : Callable → List Value → Eval Value) :
    Prop :=
  ∀ {f g : Callable} {vs ws : List Value}, f.viewed T.view = g.viewed T.view → T.Lists vs ws →
    Eval.Agree T T.Values (Eval.call self f vs) (call g ws)

/-- The phrase that a rule is for, if it is called for by other rules. -/
def Rank.phrase? : Rank form → Option (Phrase form.Result)
  | primary => none
  | unary => some .unary
  | tier .multiplicative => some .multiplicative
  | tier .additive => some .additive
  | tier .comparison => none
  | tier .logical => some .expression
  | arguments => some .arguments

namespace Tree

/-- The number of tokens that are read for the tree. -/
def size (t : Tree form) : Nat := (t.kinds ++ closing form).length

section

variable (name : String) (e : Tree .expression) (es : Tree .arguments)

theorem size_group : (group e).size = e.size + 2 := by
  simp [size, kinds, closing]

theorem size_call : (call name es).size = es.size + 2 := by
  simp [size, kinds, closing]

theorem size_assign : (assign name e).size = e.size + 2 := by
  simp [size, kinds, closing]

theorem size_unary (op : UnaryOp) : (unary op e).size = e.size + 1 := by
  simp [size, kinds, closing]

theorem size_binary (op : BinaryOp) (e' : Tree .expression) :
    (binary op e e').size = e.size + e'.size + 1 := by
  simp [size, kinds, closing]
  omega

theorem size_last : (last e).size = e.size + 1 := by
  simp [size, kinds, closing]

theorem size_more : (more e es).size = e.size + es.size + 1 := by
  simp [size, kinds, closing]
  omega

end

/-- The reading does at `c` what the evaluation does, and ends at `c'`. -/
def Follows (T : Tolerance) (x : Reading α) (R : α → β → Prop) (c : Cursor) (y : Eval β)
    (c' : Cursor) : Prop :=
  Eval.Agree T (fun p v => R p.1 v ∧ p.2 = c') (x c) y

section

variable (T : Tolerance) (call : Callable → List Value → Eval Value)

/-- There is fuel for so many nested phrases, and calls agree with whatever is left then. -/
structure Supplied (fuel size : Nat) : Prop where
  enough : T.firstStarves ∨ size ≤ fuel
  calls : ∀ k, k ≤ fuel → fuel ≤ k + size → CallsAlike T (Phrase.run k) call

/-- Where the fuel lasts and calls agree, the rule does what the tree does. -/
def Agrees (rank : Rank form) (c : Cursor) (t : Tree form) (c' : Cursor) : Prop :=
  ∀ fuel, Supplied T call fuel t.size →
    Follows T (rank.reading (Phrase.run fuel)) (form.Same T) c (t.eval call) c'

end

variable {T : Tolerance} {call : Callable → List Value → Eval Value}

/-- What comes after a reading that follows an evaluation. -/
theorem Follows.andThen {R : α → β → Prop} {S : γ × Cursor → δ → Prop} {x : Reading α} {y : Eval β}
    {f : α → Reading γ} {g : β → Eval δ} {c c₁ : Cursor} (h : Follows T x R c y c₁)
    (hfg : ∀ a b, R a b → Eval.Agree T S (f a c₁) (g b)) :
    Eval.Agree T S ((x >>= f) c) (y >>= g) := by
  refine Eval.Agree.bind h fun p b hpb => ?_
  obtain ⟨hab, hend⟩ := hpb
  have := hfg p.1 b hab
  rw [← hend] at this
  exact this

/-- Readings in sequence. -/
theorem Follows.bind {R : α → β → Prop} {S : γ → δ → Prop} {x : Reading α} {y : Eval β}
    {f : α → Reading γ} {g : β → Eval δ} {c c₁ c' : Cursor} (h : Follows T x R c y c₁)
    (hfg : ∀ a b, R a b → Follows T (f a) S c₁ (g b) c') :
    Follows T (x >>= f) S c (y >>= g) c' :=
  h.andThen hfg

/-- An evaluation that reads nothing. -/
theorem Follows.lift {R : α → β → Prop} {x : Eval α} {y : Eval β} (c : Cursor)
    (h : Eval.Agree T R x y) : Follows T (liftM x) R c y c := by
  unfold Follows
  rw [← bind_pure y]
  exact Eval.Agree.bind h fun _ _ hab => .pure ⟨hab, rfl⟩

/-- A place that is added to faults. -/
theorem Follows.locate {R : α → β → Prop} {x : Reading α} {y : Eval β} {c c' : Cursor}
    (hT : ¬T.places) (span : Span) (h : Follows T x R c y c') :
    Follows T (Reading.locate span x) R c y c' :=
  Eval.Agree.locate_first hT h

/-- A rule at the same fuel. -/
private theorem Agrees.within {rank : Rank form} {c c' : Cursor} {t : Tree form}
    (h : Agrees T call rank c t c') {fuel size : Nat} (hsupply : Supplied T call fuel size)
    (hle : t.size ≤ size) :
    Follows T (rank.reading (Phrase.run fuel)) (form.Same T) c (t.eval call) c' :=
  h fuel ⟨hsupply.enough.imp_right (Nat.le_trans hle), fun k hk hfuel =>
    hsupply.calls k hk (by omega)⟩

/-- A phrase inside a rule. -/
theorem Agrees.inner {rank : Rank form} {c c' : Cursor} {t : Tree form}
    {phrase : Phrase form.Result} (h : Agrees T call rank c t c')
    (hphrase : rank.phrase? = some phrase) {fuel size : Nat}
    (hsupply : Supplied T call fuel size) (hlt : t.size < size) :
    Follows T (Phrase.run fuel phrase) (form.Same T) c (t.eval call) c' := by
  -- without fuel the tokens may have run out where the tree has not
  cases fuel with
  | zero => exact .starved (hsupply.enough.resolve_right (by omega))
  | succ fuel =>
    have hrule := h fuel ⟨hsupply.enough.imp_right fun _ => by omega, fun k hk hle =>
      hsupply.calls k (Nat.le_succ_of_le hk) (by omega)⟩
    -- the phrase is read by the rule of its rank
    cases rank with
    | primary => cases hphrase
    | unary =>
      cases hphrase
      exact hrule
    | tier tier =>
      cases tier <;> cases hphrase <;> exact hrule
    | arguments =>
      cases hphrase
      exact hrule

/-- The same cause, with a place and without. -/
private theorem raise_agree (hT : ¬T.places) {R : α × Cursor → β → Prop} (span : Span) (cause : Cause)
    (c : Cursor) : Eval.Agree T R (Reading.raiseAt span cause c) (Eval.raise cause) :=
  .fault (.of_cause fun hp => absurd hp hT)

/-- The result of an operator. -/
private theorem computed_follows (hT : ¬T.places) (span : Span) (result : Except Cause Value)
    (c : Cursor) :
    Follows T (Reading.computed span result) T.Values c (Eval.orRaise result) c := by
  cases result with
  | ok value => exact .pure ⟨.refl value, rfl⟩
  | error cause => exact raise_agree hT span cause c

section

variable {c c₁ c₂ c' : Cursor} {name : String}

/-- A literal. -/
private theorem literal_agrees {t : Tree .expression} {kind : Kind} {v : Value}
    (h : Reads c [kind] c') (ht : t.eval call = pure v)
    (hkind : ∀ self span, Reading.primaryAt self span kind = pure v) :
    Agrees T call .primary c t c' := by
  intro fuel _
  show Eval.Agree T _ (Reading.primary _ _) (t.eval call)
  rw [Reading.primary_of_reads _ h, hkind, ht]
  exact .pure ⟨.refl _, rfl⟩

/-- An expression in parentheses. -/
private theorem group_agrees {inner : Tree .expression} (hopen : Reads c [.symbol .leftParen] c₁)
    (ih : Agrees T call .whole c₁ inner c₂) (hclose : Reads c₂ [.symbol .rightParen] c') :
    Agrees T call .primary c (group inner) c' := by
  intro fuel hsupply
  rw [size_group] at hsupply
  have hinner := ih.inner rfl hsupply (by omega)
  show Eval.Agree T _ (Reading.primary _ _) (inner.eval call)
  rw [Reading.primary_of_reads _ hopen, ← bind_pure (inner.eval call)]
  refine Follows.bind hinner fun v w hvw => ?_
  -- the tree has nothing for the closing parenthesis, which is there
  unfold Follows
  rw [Reading.bind_of_pure (Reading.expect_of_reads hclose _)]
  exact .pure ⟨hvw, rfl⟩

/-- A variable that is read. -/
private theorem read_agrees (hT : ¬T.places) (hname : Reads c [.ident name] c')
    (hnext : c'.ahead.any Kind.actsOnName = false) :
    Agrees T call .primary c (read name) c' := by
  intro fuel _
  show Eval.Agree T _ (Reading.primary _ c) _
  rw [Reading.primary_of_reads _ hname]
  show Eval.Agree T _ (Reading.named _ name c.here c') (Eval.variableNamed name >>= _)
  rw [Reading.named_eq, Eval.variableNamed_bind]
  refine .resolve name (raise_agree hT _ _ _) fun b b' hb => ?_
  rw [Reading.meaning_of_read _ _ _ b hnext]
  exact .pure ⟨congrArg Variable.value hb, rfl⟩

/-- A call, given what becomes of the arguments. -/
private theorem call_agrees (hT : ¬T.places) {fuel : Nat} {arguments : Eval (List Value)}
    (hname : Reads c [.ident name] c₁) (hopen : Reads c₁ [.symbol .leftParen] c₂)
    (hcall : CallsAlike T (Phrase.run fuel) call)
    (harguments : Follows T (Reading.callArguments (Phrase.run fuel)) T.Lists c₂ arguments c') :
    Follows T (Reading.primary (Phrase.run fuel)) T.Values c
      (do
        let function ← Eval.functionNamed name
        call function (← arguments)) c' := by
  show Eval.Agree T _ (Reading.primary _ c) _
  rw [Reading.primary_of_reads _ hname]
  show Eval.Agree T _ (Reading.named _ name c.here c₁) _
  -- the name is looked up, and the parenthesis behind it asks for a call
  rw [Reading.named_eq, Eval.functionNamed_bind, Cursor.ahead_of_reads hopen]
  refine .resolve name (raise_agree hT _ _ _) fun b b' hb => ?_
  have hvalue : T.Values b.value b'.value := congrArg Variable.value hb
  simp only [Reading.meaning]
  -- a value that counts as a function is one, so both sides call or both refuse
  obtain ⟨f, g, hf, hg, hfg⟩ | ⟨hvw, hne⟩ := hvalue.function_cases
  · simp only [hf, hg]
    rw [Reading.next_bind_of_reads hopen]
    exact Follows.locate hT _ (Follows.bind harguments fun vs ws hvs => .lift _ (hcall hfg hvs))
  · rw [← hvw]
    cases hb' : b.value with
    | function f => exact absurd hb' (hne f)
    | number | text | boolean | void => exact raise_agree hT _ _ _

/-- An assignment, given what becomes of the value. -/
private theorem assign_agrees (hT : ¬T.places) {fuel : Nat} {value : Eval Value}
    (hname : Reads c [.ident name] c₁) (hequal : Reads c₁ [.symbol .equal] c₂)
    (hvalue : Follows T (Phrase.run fuel .expression) T.Values c₂ value c') :
    Follows T (Reading.primary (Phrase.run fuel)) T.Values c
      (do
        if (← Eval.variableNamed name).isFinal then
          Eval.raise (.constantViolation name)
        else
          let value ← value
          Eval.assign name value
          return value) c' := by
  show Eval.Agree T _ (Reading.primary _ c) _
  rw [Reading.primary_of_reads _ hname]
  show Eval.Agree T _ (Reading.named _ name c.here c₁) _
  rw [Reading.named_eq, Eval.variableNamed_bind, Cursor.ahead_of_reads hequal]
  refine .resolve name (raise_agree hT _ _ _) fun b b' hb => ?_
  have hfinal : b.isFinal = b'.isFinal := by simpa using congrArg Variable.isFinal hb
  -- a final variable is refused before the value is evaluated
  simp only [Reading.meaning, hfinal]
  split
  · exact raise_agree hT _ _ _
  · rw [Reading.next_bind_of_reads hequal]
    refine Follows.bind hvalue fun v w hvw => ?_
    exact Follows.bind (.locate hT _ (.lift _ (.assign name hvw))) fun _ _ _ => .pure ⟨hvw, rfl⟩

/-- A variable that is stepped up or down. -/
private theorem step_agrees (hT : ¬T.places) {increment : Bool}
    (hname : Reads c [.ident name] c₁)
    (hmark : Reads c₁ [.symbol (if increment then .plusPlus else .minusMinus)] c') :
    Agrees T call .primary c (step name increment) c' := by
  intro fuel _
  show Eval.Agree T _ (Reading.primary _ c) _
  rw [Reading.primary_of_reads _ hname]
  show Eval.Agree T _ (Reading.named _ name c.here c₁) (Eval.variableNamed name >>= _)
  rw [Reading.named_eq, Eval.variableNamed_bind, Cursor.ahead_of_reads hmark]
  refine .resolve name (raise_agree hT _ _ _) fun b b' hb => ?_
  -- both marks are read alike
  cases increment with
  | true =>
    show Follows T (_ >>= fun _ => _) T.Values c₁ _ c'
    unfold Follows
    rw [Reading.next_bind_of_reads hmark]
    exact Follows.locate hT _ (.lift _ (.step name hb true))
  | false =>
    show Follows T (_ >>= fun _ => _) T.Values c₁ _ c'
    unfold Follows
    rw [Reading.next_bind_of_reads hmark]
    exact Follows.locate hT _ (.lift _ (.step name hb false))

/-- A call without arguments. -/
private theorem callNone_agrees (hT : ¬T.places) (hname : Reads c [.ident name] c₁)
    (hopen : Reads c₁ [.symbol .leftParen] c₂) (hclose : Reads c₂ [.symbol .rightParen] c') :
    Agrees T call .primary c (callNone name) c' := by
  intro fuel hsupply
  have harguments : Follows T (Reading.callArguments (Phrase.run fuel)) T.Lists c₂ (pure []) c' := by
    unfold Follows Reading.callArguments
    rw [Reading.bind_of_pure (Reading.accept_of_reads hclose)]
    exact .pure ⟨rfl, rfl⟩
  exact call_agrees hT hname hopen (hsupply.calls fuel (Nat.le_refl _) (by omega)) harguments

/-- A call with arguments. -/
private theorem callSome_agrees (hT : ¬T.places) {arguments : Tree .arguments}
    (hname : Reads c [.ident name] c₁) (hopen : Reads c₁ [.symbol .leftParen] c₂)
    (hne : c₂.ahead ≠ some (.symbol .rightParen)) (ih : Agrees T call .arguments c₂ arguments c') :
    Agrees T call .primary c (Tree.call name arguments) c' := by
  intro fuel hsupply
  refine call_agrees hT hname hopen (hsupply.calls fuel (Nat.le_refl _) (by omega)) ?_
  rw [size_call] at hsupply
  -- no closing parenthesis is next, so arguments are read
  unfold Follows Reading.callArguments
  rw [Reading.bind_of_pure (Reading.accept_of_ne hne)]
  exact ih.inner rfl hsupply (by omega)

/-- A unary operator in front of its operand. -/
private theorem unary_agrees (hT : ¬T.places) {op : UnaryOp} {operand : Tree .expression}
    (hop : Reads c [.symbol op.mark] c₁) (ih : Agrees T call .unary c₁ operand c') :
    Agrees T call .unary c (unary op operand) c' := by
  intro fuel hsupply
  rw [size_unary] at hsupply
  obtain ⟨place, heq⟩ := Reading.unary_of_reads (Phrase.run fuel) hop
  show Eval.Agree T _ (Reading.unary _ _) _
  rw [heq]
  refine Follows.bind (ih.inner rfl hsupply (by omega)) fun v w hvw => ?_
  rw [hvw.applyUnary]
  exact computed_follows hT place _ c'

end

/-- A tier of which only the first operand is there. -/
private theorem lone_follows {tier : Tier} {operand : Reading Value} {y : Eval Value}
    {others : Value → Option (BinaryOp × Span) → Reading Value} {c c' : Cursor}
    (hothers : ∀ v, others v none = pure v) (h : Follows T operand T.Values c y c')
    (habsent : tier.Absent c'.ahead) :
    Follows T (operand >>= fun left => Reading.operatorAhead tier >>= others left) T.Values c y
      c' := by
  unfold Follows
  rw [← bind_pure y]
  refine Follows.bind h fun v w hvw => ?_
  unfold Follows
  rw [Reading.bind_of_pure (Reading.operatorAhead_of_absent habsent), hothers]
  exact .pure ⟨hvw, rfl⟩

/-- Two operands and the operator between them. -/
private theorem joined_follows (hT : ¬T.places) {tier : Tier} {op : BinaryOp}
    (htier : op.tier = tier) {left right : Reading Value} {y z : Eval Value}
    {c c₁ c₂ c' : Cursor} (h : Follows T left T.Values c y c₁)
    (hop : Reads c₁ [.symbol op.mark] c₂) (h' : Follows T right T.Values c₂ z c') :
    Follows T (Reading.rightGrouped tier left right) T.Values c
      (do
        let left ← y
        let right ← z
        Eval.orRaise (op.apply left right)) c' := by
  subst htier
  refine Follows.bind h fun v w hvw => ?_
  -- the operator is there, so it is read, and then the right operand
  unfold Follows
  obtain ⟨place, heq⟩ := Reading.operatorAhead_of_reads hop _
  rw [heq]
  show Eval.Agree T _ ((Reading.next >>= fun _ => _) c₁) _
  rw [Reading.next_bind_of_reads hop]
  refine Follows.bind h' fun v' w' hvw' => ?_
  rw [hvw.apply hvw']
  exact computed_follows hT place _ c'

/-- Two sums that are compared, and no third. -/
private theorem compared_follows (hT : ¬T.places) {op : BinaryOp} (htier : op.tier = .comparison)
    {self : Evaluator} {y z : Eval Value} {c c₁ c₂ c' : Cursor}
    (h : Follows T (Reading.additive self) T.Values c y c₁) (hop : Reads c₁ [.symbol op.mark] c₂)
    (h' : Follows T (Reading.additive self) T.Values c₂ z c')
    (habsent : Tier.comparison.Absent c'.ahead) :
    Follows T (Reading.comparison self) T.Values c
      (do
        let left ← y
        let right ← z
        Eval.orRaise (op.apply left right)) c' := by
  refine Follows.bind h fun v w hvw => ?_
  unfold Follows
  rw [← htier]
  obtain ⟨place, heq⟩ := Reading.operatorAhead_of_reads hop _
  rw [heq]
  show Eval.Agree T _ ((Reading.next >>= fun _ => _) c₁) _
  rw [Reading.next_bind_of_reads hop]
  refine Follows.bind h' fun v' w' hvw' => ?_
  -- no second comparison follows, or it would be a fault
  unfold Follows
  rw [htier, Reading.bind_of_pure (Reading.operatorAhead_of_absent habsent), hvw.apply hvw']
  exact computed_follows hT place _ c'

section

variable {tier : Tier} {c c₁ c₂ c' : Cursor}

/-- One operand is a whole tier. -/
private theorem lone_agrees {t : Tree .expression} (ih : Agrees T call tier.left c t c')
    (habsent : tier.Absent c'.ahead) : Agrees T call (.tier tier) c t c' := by
  intro fuel hsupply
  -- the operand is read in the same step, and not as a phrase of its own
  have hleft := ih.within hsupply (Nat.le_refl _)
  cases tier with
  | multiplicative => exact lone_follows (fun _ => rfl) hleft habsent
  | additive => exact lone_follows (fun _ => rfl) hleft habsent
  | comparison => exact lone_follows (fun _ => rfl) hleft habsent
  | logical => exact lone_follows (fun _ => rfl) hleft habsent

/-- Two operands are a whole tier. -/
private theorem binary_agrees (hT : ¬T.places) {op : BinaryOp} {left right : Tree .expression}
    (htier : op.tier = tier) (ih : Agrees T call tier.left c left c₁)
    (hop : Reads c₁ [.symbol op.mark] c₂) (ih' : Agrees T call tier.right c₂ right c')
    (hlast : tier = .comparison → tier.Absent c'.ahead) :
    Agrees T call (.tier tier) c (binary op left right) c' := by
  intro fuel hsupply
  rw [size_binary] at hsupply
  have hleft := ih.within hsupply (by omega)
  -- the right operand is a phrase, except that of a comparison, which does not group
  cases tier with
  | multiplicative => exact joined_follows hT htier hleft hop (ih'.inner rfl hsupply (by omega))
  | additive => exact joined_follows hT htier hleft hop (ih'.inner rfl hsupply (by omega))
  | logical => exact joined_follows hT htier hleft hop (ih'.inner rfl hsupply (by omega))
  | comparison =>
    exact compared_follows hT htier hleft hop (ih'.within hsupply (by omega)) (hlast rfl)

end

section

variable {c c₁ c₂ c' : Cursor} {argument : Tree .expression}

/-- The last argument of a call. -/
private theorem last_agrees (ih : Agrees T call .whole c argument c₁)
    (hclose : Reads c₁ [.symbol .rightParen] c') :
    Agrees T call .arguments c (last argument) c' := by
  intro fuel hsupply
  rw [size_last] at hsupply
  refine Follows.bind (ih.inner rfl hsupply (by omega)) fun v w hvw => ?_
  unfold Follows
  rw [Reading.bind_of_pure (Reading.accept_of_reads hclose)]
  exact .pure ⟨.cons hvw rfl, rfl⟩

/-- An argument in front of others. -/
private theorem more_agrees {others : Tree .arguments} (ih : Agrees T call .whole c argument c₁)
    (hcomma : Reads c₁ [.symbol .comma] c₂) (ih' : Agrees T call .arguments c₂ others c') :
    Agrees T call .arguments c (more argument others) c' := by
  intro fuel hsupply
  rw [size_more] at hsupply
  have hne := Cursor.ahead_of_reads hcomma
  refine Follows.bind (ih.inner rfl hsupply (by omega)) fun v w hvw => ?_
  -- the list does not end here: a comma is next
  unfold Follows
  rw [Reading.bind_of_pure (Reading.accept_of_ne (by rw [hne]; decide))]
  simp only [Bool.false_eq_true, if_false]
  rw [Reading.bind_of_pure (Reading.expect_of_reads hcomma _)]
  exact Follows.bind (ih'.inner rfl hsupply (by omega)) fun vs ws hvs =>
    .pure ⟨.cons hvw hvs, rfl⟩

end

/-- The evaluations of tokens and of the tree that they spell agree. -/
theorem Parses.agree (hT : ¬T.places) {rank : Rank form} {c c' : Cursor} {t : Tree form}
    (h : Parses rank c t c') : Agrees T call rank c t c' := by
  -- one rule of reading after the other; what is inside agrees
  induction h with
  | number h | text h => exact literal_agrees h rfl fun _ _ => rfl
  | @truth _ _ b h => exact literal_agrees h rfl fun _ _ => by cases b <;> rfl
  | read h hname => exact read_agrees hT h hname
  | group h _ hclose ih => exact group_agrees h ih hclose
  | callNone h hopen hclose => exact callNone_agrees hT h hopen hclose
  | call h hopen hne _ ih => exact callSome_agrees hT h hopen hne ih
  | assign h hequal _ ih =>
    intro fuel hsupply
    rw [size_assign] at hsupply
    exact assign_agrees hT h hequal (ih.inner rfl hsupply (by omega))
  | step h h' => exact step_agrees hT h h'
  | plain hop _ ih =>
    intro fuel hsupply
    show Eval.Agree T _ (Reading.unary _ _) _
    rw [Reading.unary_of_plain _ hop]
    exact ih fuel hsupply
  | unary h _ ih => exact unary_agrees hT h ih
  | lone _ habsent ih => exact lone_agrees ih habsent
  | joined htier _ hop _ hlast ih ih' => exact binary_agrees hT htier ih hop ih' hlast
  | last _ hclose ih => exact last_agrees ih hclose
  | more _ hcomma _ ih ih' => exact more_agrees ih hcomma ih'

end Tree

end Tern
