import Tern.Evaluation.Run
import Tern.Proofs.Expression.Parsing

/-!
# Operands

What is read where an operand of an expression stands. The first token tells which rule applies, and
behind a name its variable and the next token tell what is done with it. An operand that no operator
follows is the whole expression.

## Key results

- `Reading.primary_of_reads`: an operand by its first token
- `Reading.named_of_lookup`: a name by its variable and the token behind it
- `Reading.unary_of_reads`, `Reading.unary_of_plain`: operators in front of an operand
- `Reading.logical_of_ok`, `Reading.logical_of_error`: an operand on its own
-/

namespace Tern

open Cursor (Reads)

namespace Reading

variable (self : Evaluator) {c c' : Cursor} {s s' : Session}

/-! ### Names -/

/-- What a name means, given its variable and the kind of the token behind it. -/
def meaning (name : String) (span : Span) (b : Variable) : Option Kind → Reading Value
  | some (.symbol .leftParen) =>
    match b.value with
    | .function function => do
      let _ ← next
      locate span do
        let arguments ← callArguments self
        Eval.call self function arguments
    | other => raiseAt span (.typeMismatch Ty.function.name other.typeName)
  | some (.symbol .equal) =>
    if b.isFinal then
      raiseAt span (.constantViolation name)
    else do
      let _ ← next
      let value ← self .expression
      locate span (Eval.assign name value)
      return value
  | some (.symbol .plusPlus) => do
    let _ ← next
    locate span (Eval.step name b true)
  | some (.symbol .minusMinus) => do
    let _ ← next
    locate span (Eval.step name b false)
  | _ => return b.value

/-- A name that stands for a variable. -/
theorem named_of_lookup {name : String} {b : Variable} (hb : s.env.lookup name = some b)
    (span : Span) : named self name span c s = meaning self name span b c.ahead c s := by
  unfold named
  rw [session_bind, hb]
  simp only
  rw [peekKind_bind]
  rfl

/-- A name that stands for nothing. -/
theorem named_of_unbound {name : String} (hb : s.env.lookup name = none) (span : Span) :
    named self name span c s = raiseAt span (.undefinedVariable name) c s := by
  unfold named
  rw [session_bind, hb]

/-- A name that nothing is done to is its value. -/
theorem meaning_of_read (name : String) (span : Span) (b : Variable) {next : Option Kind}
    (h : next.any Kind.actsOnName = false) : meaning self name span b next = pure b.value := by
  unfold meaning
  -- a call, an assignment and the two steps are what is done to a name
  split
  · cases h
  · cases h
  · cases h
  · cases h
  · rfl

/-- What is done to a variable reads no token. -/
theorem locate_of_ok {x : Eval α} {a : α} (span : Span) (h : x s = .ok a s') :
    (locate span x : Reading α) c s = .ok (a, c) s' := by
  show EStateM.adaptExcept _ (x >>= fun a => pure (a, c)) s = _
  simp only [EStateM.adaptExcept, bind, EStateM.bind, h]
  rfl

/-- If something cannot be done to a variable, the fault is where the name stands. -/
theorem locate_of_error {x : Eval α} {fault : Fault} (span : Span)
    (h : x s = .error (.fault fault) s') :
    (locate span x : Reading α) c s = .error (.fault (fault.located span)) s' := by
  show EStateM.adaptExcept _ (x >>= fun a => pure (a, c)) s = _
  simp only [EStateM.adaptExcept, bind, EStateM.bind, h, Halt.mapFault]

/-! ### One operand -/

/-- An operand, given its first token. -/
def primaryAt (span : Span) : Kind → Reading Value
  | .symbol .leftParen => do
    let value ← self .expression
    expect (.symbol .rightParen) "`)` to close the parenthesis"
    return value
  | .str text => return .text text
  | .number n => return .number n
  | .keyword .trueKw => return .boolean true
  | .keyword .falseKw => return .boolean false
  | .ident name => named self name span
  | .unknown text => raiseAt span (.unknownToken text)
  | other => raiseAt span (.malformed (.expected "expression" other.text))

/-- An operand is known by its first token. -/
theorem primary_of_reads {kind : Kind} (h : Reads c [kind] c') :
    primary self c = primaryAt self c.here kind c' := by
  obtain ⟨token, c₁, hnext, rfl, hend⟩ := h.of_cons
  cases hend
  unfold primary
  rw [here_bind, bind_of_pure (next_of_some hnext)]
  rfl

/-- Without a unary operator there is an operand. -/
theorem unary_of_plain (h : c.ahead.bind UnaryOp.ofKind? = none) :
    unary self c = primary self c := by
  unfold unary
  rw [peek_bind]
  -- looking ahead for an operator sees the next token, whatever comments are in front
  rw [← c.peek_map_kind] at h
  cases hpeek : c.peek with
  | none => rfl
  | some token =>
    have hop : UnaryOp.ofKind? token.kind = none := by
      rw [hpeek] at h
      exact h
    simp only [hop]

/-- A unary operator and its operand. -/
theorem unary_of_reads {op : UnaryOp} (h : Reads c [.symbol op.mark] c') :
    ∃ place, unary self c =
      (do
        let operand ← self .unary
        computed place (op.apply operand)) c' := by
  obtain ⟨token, c₁, hnext, hkind, hend⟩ := h.of_cons
  cases hend
  have hop : UnaryOp.ofKind? token.kind = some op := by
    rw [hkind]
    cases op <;> rfl
  -- a fault of the operator is where its mark stands
  refine ⟨token.span, ?_⟩
  unfold unary
  rw [peek_bind, c.peek_eq, hnext]
  simp only [Option.map_some, hop]
  exact bind_of_pure (next_of_some hnext)

/-! ### An operand on its own -/

/-- Where no operator of the tier is next, none is found. -/
theorem operatorAhead_of_absent {tier : Tier} (h : tier.Absent c.ahead) :
    operatorAhead tier c = pure (none, c) := by
  unfold operatorAhead
  rw [peek_bind]
  unfold Tier.Absent at h
  -- and so it does between two operands
  rw [← c.peek_map_kind] at h
  cases hpeek : c.peek with
  | none => rfl
  | some token =>
    have hop : tier.operator? token.kind = none := by
      rw [hpeek] at h
      exact h
    simp only [hop]
    rfl

/-- An operand that no operator of the tier follows. -/
private theorem rightGrouped_of_ok {tier : Tier} {operand : Reading Value} {v : Value}
    (h : operand c s = .ok (v, c') s') (habsent : tier.Absent c'.ahead) (others : Reading Value) :
    rightGrouped tier operand others c s = .ok (v, c') s' := by
  unfold rightGrouped
  rw [bind_of_eq_ok h, bind_of_pure (operatorAhead_of_absent habsent)]
  rfl

/-- An operand that no operator follows is the whole expression. -/
theorem logical_of_ok {v : Value} (h : unary self c s = .ok (v, c') s')
    (habsent : ∀ tier : Tier, tier.Absent c'.ahead) : logical self c s = .ok (v, c') s' := by
  -- from the tier that binds most tightly outwards
  have hadditive : additive self c s = .ok (v, c') s' :=
    rightGrouped_of_ok (rightGrouped_of_ok h (habsent _) _) (habsent _) _
  refine rightGrouped_of_ok ?_ (habsent _) _
  unfold comparison
  rw [bind_of_eq_ok hadditive, bind_of_pure (operatorAhead_of_absent (habsent _))]
  rfl

/-- An operand that fails makes the expression fail. -/
theorem logical_of_error {halt : Halt} (h : unary self c s = .error halt s') :
    logical self c s = .error halt s' :=
  bind_of_eq_error (bind_of_eq_error (bind_of_eq_error (bind_of_eq_error h)))

end Reading

end Tern
