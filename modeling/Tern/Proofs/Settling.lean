import Tern.Proofs.Landing

/-!
# Evaluations that come to an end

How much fuel an evaluation takes is seldom known in advance. So evaluations are looked at with all
amounts of fuel at once: a family of them, one for each amount, settles if from some amount on they
all end in the same way, and not by running out of fuel. What holds of the result is said along
with it, as later parts of an evaluation come to an end only because of what earlier ones have
given.

## Key results

- `Eval.Settles.bind`, `Reading.Settles.bind`: evaluations in sequence
- `Eval.Settles.inScope`, `Eval.Settles.inCall`, `Eval.Settles.iterate`: scopes, calls and loops
- `Eval.Settles.of_succ`: one unit of fuel does not matter
-/

namespace Tern

namespace Eval

/-- The evaluation has come to an end: with a result and a session as `Q` says, or with a fault. -/
inductive Ended (Q : α → Session → Prop) : EStateM.Result Halt Session α → Prop
  | ok {a : α} {t : Session} : Q a t → Ended Q (.ok a t)
  | fault (f : Fault) (t : Session) : Ended Q (.error (.fault f) t)

/-- From `s`, all but finitely many of the evaluations come to an end, and in the same way. -/
def Settles (x : Nat → Eval α) (s : Session) (Q : α → Session → Prop) : Prop :=
  ∃ r, Ended Q r ∧ ∃ n, ∀ k, n ≤ k → x k s = r

namespace Settles

variable {s : Session} {x : Nat → Eval α} {P Q : α → Session → Prop}

/-- An evaluation that takes no fuel. -/
theorem const {x : Eval α} (h : Ended Q (x s)) : Settles (fun _ => x) s Q :=
  ⟨x s, h, 0, fun _ _ => rfl⟩

protected theorem pure {a : α} (h : Q a s) : Settles (fun _ => pure a) s Q := const (.ok h)

theorem raise {cause : Cause} : Settles (fun _ => Eval.raise cause) s Q := const (.fault _ _)

theorem orRaise {x : Except Cause α} (h : ∀ a, x = .ok a → Q a s) :
    Settles (fun _ => Eval.orRaise x) s Q := by
  cases x with
  | ok a => exact .pure (h a rfl)
  | error cause => exact .raise

/-- Saying less about the result. -/
theorem mono (h : Settles x s P) (hPQ : ∀ a t, P a t → Q a t) : Settles x s Q := by
  obtain ⟨r, hr, hn⟩ := h
  refine ⟨r, ?_, hn⟩
  cases hr with
  | ok hP => exact .ok (hPQ _ _ hP)
  | fault f t => exact .fault f t

/-- Evaluations in sequence. -/
protected theorem bind {f : Nat → α → Eval β} {R : β → Session → Prop} (hx : Settles x s P)
    (hf : ∀ a t, P a t → Settles (fun k => f k a) t R) :
    Settles (fun k => x k >>= f k) s R := by
  obtain ⟨r, hr, n, hn⟩ := hx
  cases hr with
  | ok hP =>
    obtain ⟨r', hr', n', hn'⟩ := hf _ _ hP
    -- from the larger of both amounts on, both parts have enough
    refine ⟨r', hr', max n n', fun k hk => ?_⟩
    show (x k >>= f k) s = r'
    rw [bind_of_ok (hn k (by omega))]
    exact hn' k (by omega)
  | fault f t => exact ⟨_, .fault f t, n, fun k hk => bind_of_error (hn k hk)⟩

/-- A look at the session. -/
theorem getting {f : Nat → Session → Eval α} (h : Settles (fun k => f k s) s Q) :
    Settles (fun k => get >>= f k) s Q := h

/-- A change to the session. -/
theorem modifying {f : Session → Session} {Q : Unit → Session → Prop} (h : Q () (f s)) :
    Settles (fun _ => modify f) s Q := const (.ok h)

/-- One unit of fuel does not matter. -/
theorem of_succ (h : Settles (fun k => x (k + 1)) s Q) : Settles x s Q := by
  obtain ⟨r, hr, n, hn⟩ := h
  -- with no fuel at all there is no smaller amount to look at, but one need not start there
  refine ⟨r, hr, n + 1, fun k hk => ?_⟩
  obtain ⟨k, rfl⟩ : ∃ j, k = j + 1 := ⟨k - 1, by omega⟩
  exact hn k (by omega)

/-- Changes to faults. -/
theorem adaptFault (change : Fault → Fault) (h : Settles x s Q) :
    Settles (fun k => EStateM.adaptExcept (Halt.mapFault change) (x k)) s Q := by
  obtain ⟨r, hr, n, hn⟩ := h
  cases hr with
  | ok hQ => exact ⟨_, .ok hQ, n, fun k hk => by simp only [EStateM.adaptExcept, hn k hk]⟩
  | fault f t =>
    refine ⟨_, .fault (change f) t, n, fun k hk => ?_⟩
    simp only [EStateM.adaptExcept, hn k hk, Halt.mapFault]

/-- A change to the session at the end. -/
private theorem afterwards {change : Session → Session}
    (h : Settles x s fun a t => Q a (change t)) :
    Settles (fun k => Eval.afterwards (x k) change) s Q := by
  obtain ⟨r, hr, n, hn⟩ := h
  cases hr with
  | ok hQ => exact ⟨_, .ok hQ, n, fun k hk => by simp only [Eval.afterwards, hn k hk]⟩
  | fault f t =>
    exact ⟨_, .fault f (change t), n, fun k hk => by simp only [Eval.afterwards, hn k hk]⟩

/-- A scope of its own. -/
theorem inScope (h : Settles x { s with env := s.env.push }
      fun a t => Q a { t with env := t.env.pop }) :
    Settles (fun k => Eval.inScope (x k)) s Q :=
  h.afterwards

/-- A call. -/
theorem inCall (name : String) (h : Settles x { s with callDepth := s.callDepth + 1 }
      fun a t => Q a { t with callDepth := t.callDepth - 1 }) :
    Settles (fun k => Eval.inCall name (x k)) s Q :=
  h.afterwards.adaptFault _

/-- Loops, if every round keeps `I`. -/
theorem iterate {body : Nat → Nat → Eval (Option α)} {atEnd : Eval α} {I : Session → Prop}
    (hbody : ∀ i t, I t →
      Settles (fun k => body k i) t fun result t' => I t' ∧ ∀ a ∈ result, Q a t')
    (hend : ∀ t, I t → Settles (fun _ => atEnd) t Q) (hs : I s) (index count : Nat) :
    Settles (fun k => Eval.iterate (body k) atEnd index count) s Q := by
  induction count generalizing index s with
  | zero => exact hend s hs
  | succ count ih =>
    -- all rounds are given the same amount of fuel, and the largest that one of them takes is enough
    simp only [iterate_succ]
    refine .bind (hbody index s hs) fun result t ⟨ht, hresult⟩ => ?_
    cases result with
    | some a => exact .pure (hresult a rfl)
    | none => exact ih ht (index + 1)

end Settles

end Eval

namespace Reading

open Cursor (Reads)

/-- From `c` and `s`, all but finitely many of the readings come to an end, and in the same way. -/
def Settles (x : Nat → Reading α) (c : Cursor) (s : Session)
    (Q : α → Cursor → Session → Prop) : Prop :=
  Eval.Settles (fun k => x k c) s fun p t => Q p.1 p.2 t

namespace Settles

variable {c : Cursor} {s : Session} {x : Nat → Reading α} {P Q : α → Cursor → Session → Prop}

protected theorem pure {a : α} (h : Q a c s) : Settles (fun _ => pure a) c s Q :=
  Eval.Settles.pure h

theorem raiseAt {span : Span} {cause : Cause} :
    Settles (fun _ => Reading.raiseAt span cause) c s Q :=
  Eval.Settles.const (.fault _ _)

/-- Saying less about the result. -/
theorem mono (h : Settles x c s P) (hPQ : ∀ a c' t, P a c' t → Q a c' t) : Settles x c s Q :=
  Eval.Settles.mono h fun p t => hPQ p.1 p.2 t

/-- Readings that end in the same way. -/
theorem of_eq {y : Nat → Reading α} {c' : Cursor} {s' : Session}
    (heq : ∀ k, x k c s = y k c' s') (h : Settles y c' s' Q) : Settles x c s Q := by
  obtain ⟨r, hr, n, hn⟩ := h
  exact ⟨r, hr, n, fun k hk => (heq k).trans (hn k hk)⟩

/-- Readings in sequence. -/
protected theorem bind {f : Nat → α → Reading β} {R : β → Cursor → Session → Prop}
    (hx : Settles x c s P) (hf : ∀ a c' t, P a c' t → Settles (fun k => f k a) c' t R) :
    Settles (fun k => x k >>= f k) c s R :=
  Eval.Settles.bind hx fun p t => hf p.1 p.2 t

theorem map {f : α → β} {R : β → Cursor → Session → Prop}
    (hx : Settles x c s fun a c' t => R (f a) c' t) : Settles (fun k => f <$> x k) c s R :=
  Eval.Settles.bind hx fun _ _ h => .pure h

/-- A look at the cursor. -/
theorem getting {f : Nat → Cursor → Reading α} (h : Settles (fun k => f k c) c s Q) :
    Settles (fun k => get >>= f k) c s Q := h

/-- A look at the session. -/
theorem session {f : Nat → Session → Reading α} (h : Settles (fun k => f k s) c s Q) :
    Settles (fun k => getThe Session >>= f k) c s Q := h

/-- One unit of fuel does not matter. -/
theorem of_succ (h : Settles (fun k => x (k + 1)) c s Q) : Settles x c s Q :=
  Eval.Settles.of_succ h

theorem locate (span : Span) (h : Settles x c s Q) :
    Settles (fun k => Reading.locate span (x k)) c s Q :=
  Eval.Settles.adaptFault _ h

/-- An evaluation that reads nothing. -/
theorem lift {x : Nat → Eval α} (h : Eval.Settles x s fun a t => Q a c t) :
    Settles (fun k => liftM (x k)) c s Q :=
  Eval.Settles.bind h fun _ _ h => .pure h

/-- An evaluation that reads nothing leaves the cursor in its place. -/
theorem lifted {x : Nat → Eval α} {P : α → Session → Prop} (h : Eval.Settles x s P) :
    Settles (fun k => liftM (x k)) c s fun a c' t => c' = c ∧ P a t :=
  lift (h.mono fun _ _ h => ⟨rfl, h⟩)

/-- All of some tokens. -/
theorem onTokens {tokens : List Token} {Q : α → Session → Prop}
    (h : Settles x (.start tokens) s fun a _ t => Q a t) :
    Eval.Settles (fun k => Reading.onTokens tokens (x k)) s Q :=
  Eval.Settles.bind h fun _ _ h => .pure h

theorem computed {span : Span} {result : Except Cause Value} {Q : Value → Cursor → Session → Prop}
    (h : ∀ v, result = .ok v → Q v c s) :
    Settles (fun _ => Reading.computed span result) c s Q := by
  cases result with
  | ok v => exact .pure (h v rfl)
  | error cause => exact .raiseAt

/-! ### What follows a step -/

section

variable {R : β → Cursor → Session → Prop}

theorem peek {f : Nat → Option Token → Reading β} (h : Settles (fun k => f k c.peek) c s R) :
    Settles (fun k => Reading.peek >>= f k) c s R := h

theorem peekKind {f : Nat → Option Kind → Reading β}
    (h : Settles (fun k => f k (c.peek.map Token.kind)) c s R) :
    Settles (fun k => Reading.peekKind >>= f k) c s R := h

theorem here {f : Nat → Span → Reading β} (h : Settles (fun k => f k c.here) c s R) :
    Settles (fun k => Reading.here >>= f k) c s R := h

/-- Scans take no fuel, so it is enough to know where they land. -/
private theorem landing {x : Scan α} {f : Nat → α → Reading β}
    (h : Lands (Reading.scan x) c fun a c' => Settles (fun k => f k a) c' s R) :
    Settles (fun k => Reading.scan x >>= f k) c s R := by
  -- the session is not touched, so what follows starts from the same one
  have hscan : Settles (fun _ => Reading.scan x) c s
      fun a c' t => Settles (fun k => f k a) c' t R := by
    refine Eval.Settles.const ?_
    have hlands := h s
    unfold Reading.scan at hlands ⊢
    cases hx : x c with
    | ok a c' => exact .ok (hlands a c' s (by rw [hx]))
    | error fault c' => exact .fault fault s
  exact .bind hscan fun _ _ _ h => h

theorem scan {x : Scan α} {f : Nat → α → Reading β}
    (h : ∀ a c', x c = .ok a c' → Settles (fun k => f k a) c' s R) :
    Settles (fun k => Reading.scan x >>= f k) c s R :=
  landing (.scan h)

theorem next {f : Nat → Option Token → Reading β}
    (hnone : c.next? = none → Settles (fun k => f k none) c s R)
    (hsome : ∀ token c', c.next? = some (token, c') →
      Settles (fun k => f k (some token)) c' s R) :
    Settles (fun k => Reading.next >>= f k) c s R :=
  landing (.next hnone hsome)

theorem accept {kind : Kind} {f : Nat → Bool → Reading β}
    (htrue : ∀ c', Reads c [kind] c' → Settles (fun k => f k true) c' s R)
    (hfalse : c.ahead ≠ some kind → Settles (fun k => f k false) c s R) :
    Settles (fun k => Reading.accept kind >>= f k) c s R :=
  landing (.accept htrue hfalse)

/-- A step over a token that is known to be there. -/
theorem step {f : Nat → Option Token → Reading β} {token : Token} (hpeek : c.peek = some token)
    (h : ∀ c', c.next? = some (token, c') → Settles (fun k => f k (some token)) c' s R) :
    Settles (fun k => Reading.next >>= f k) c s R := by
  rw [Cursor.peek_eq] at hpeek
  refine next (fun hnone => ?_) fun token' c' hnext => ?_
  · rw [hnone] at hpeek
    cases hpeek
  · rw [hnext] at hpeek
    cases hpeek
    exact h c' hnext

theorem expect {kind : Kind} {what : String} {f : Nat → Unit → Reading β}
    (h : ∀ c', Reads c [kind] c' → Settles (fun k => f k ()) c' s R) :
    Settles (fun k => Reading.expect kind what >>= f k) c s R := by
  unfold Reading.expect
  simp only [bind_assoc]
  exact scan fun token c' hx => h c' (Scan.reads_of_expect hx)

theorem operatorAhead {tier : Tier} {f : Nat → Option (BinaryOp × Span) → Reading β}
    (hnone : Settles (fun k => f k none) c s R)
    (hsome : ∀ op token, c.peek = some token →
      Settles (fun k => f k (some (op, token.span))) c s R) :
    Settles (fun k => Reading.operatorAhead tier >>= f k) c s R := by
  unfold Reading.operatorAhead
  simp only [bind_assoc]
  refine peek ?_
  cases hpeek : c.peek with
  | none => exact hnone
  | some token =>
    simp only [pure_bind]
    cases tier.operator? token.kind with
    | none => exact hnone
    | some op => exact hsome op token hpeek

end

end Settles

end Reading

end Tern
