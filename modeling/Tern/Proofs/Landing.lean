import Tern.Evaluation.Expression
import Tern.Proofs.Scanning

/-!
# Where a reading lands

How far a reading moves the cursor can often be told without a look at the session. `Reading.Lands`
is a postcondition for the result and the cursor of a reading that succeeds, whatever session it
starts from; readings that fail are not asked for anything.

## Key results

- `Reading.Lands.bind`: readings in sequence
- `Reading.Lands.accept`, `Reading.Lands.expect`, `Reading.Lands.next`: steps over one token
- `Reading.Lands.lift`: an evaluation that reads nothing leaves the cursor where it is
- `Eval.Yields.iterate`: the same for results of evaluations, and for loops
-/

namespace Tern

open Cursor (Reads)

namespace Eval

/-- Whenever the evaluation succeeds, its result is as said. -/
def Yields (x : Eval α) (P : α → Prop) : Prop := ∀ s a s', x s = .ok a s' → P a

namespace Yields

protected theorem pure {a : α} {P : α → Prop} (h : P a) : Yields (pure a) P := by
  intro s a' s' hx
  cases hx
  exact h

protected theorem throw {halt : Halt} {P : α → Prop} : Yields (throw halt) P := by
  intro s a' s' hx
  cases hx

/-- Evaluations in sequence. -/
protected theorem bind {x : Eval α} {f : α → Eval β} {P : β → Prop} (h : ∀ a, Yields (f a) P) :
    Yields (x >>= f) P := by
  intro s b s' hx
  obtain ⟨a, s₁, -, hf⟩ := ok_of_bind hx
  exact h a s₁ b s' hf

/-- Loops: every result is one of a round, or of what follows the last one. -/
theorem iterate {body : Nat → Eval (Option α)} {atEnd : Eval α} {P : α → Prop}
    (hbody : ∀ i, Yields (body i) fun result => ∀ a, result = some a → P a)
    (hend : Yields atEnd P) (index count : Nat) :
    Yields (Eval.iterate body atEnd index count) P := by
  -- round by round; what a round does to the session is not asked
  induction count generalizing index with
  | zero => exact hend
  | succ count ih =>
    rw [iterate_succ]
    intro s b s' hx
    obtain ⟨result, s₁, hround, hx⟩ := ok_of_bind hx
    cases result with
    | some a =>
      cases hx
      exact hbody index s _ _ hround _ rfl
    | none => exact ih (index + 1) s₁ b s' hx

end Yields

end Eval

namespace Reading

/-- A reading succeeds if its first part does, and then what follows. -/
theorem eq_ok_of_bind {x : Reading α} {f : α → Reading β} {c c' : Cursor} {s s' : Session} {b : β}
    (h : (x >>= f) c s = .ok (b, c') s') :
    ∃ a c₁ s₁, x c s = .ok (a, c₁) s₁ ∧ f a c₁ s₁ = .ok (b, c') s' := by
  obtain ⟨p, s₁, hp, hb⟩ := ok_of_bind (x := x c) (f := fun p => f p.1 p.2) h
  exact ⟨p.1, p.2, s₁, hp, hb⟩

/-- Places are added to faults only. -/
theorem locate_eq_ok_iff {x : Reading α} {span : Span} {c c' : Cursor} {s s' : Session} {a : α} :
    locate span x c s = .ok (a, c') s' ↔ x c s = .ok (a, c') s' := by
  show EStateM.adaptExcept _ (x c) s = _ ↔ _
  unfold EStateM.adaptExcept
  split
  · rename_i hx
    simp [hx]
  · rename_i hx
    rw [hx]

/-- Whenever the reading succeeds at this cursor, result and final cursor are as said. -/
def Lands (x : Reading α) (c : Cursor) (Q : α → Cursor → Prop) : Prop :=
  ∀ s a c' s', x c s = .ok (a, c') s' → Q a c'

namespace Lands

variable {c : Cursor}

/-- Where more is allowed. -/
theorem mono {x : Reading α} {Q Q' : α → Cursor → Prop} (h : Lands x c Q)
    (hQ : ∀ a c', Q a c' → Q' a c') : Lands x c Q' :=
  fun s a c' s' hx => hQ a c' (h s a c' s' hx)

/-- A result without a step. -/
protected theorem pure {a : α} {Q : α → Cursor → Prop} (h : Q a c) :
    Lands (pure a) c Q := by
  intro s a' c' s' hx
  cases hx
  exact h

/-- Readings in sequence. -/
protected theorem bind {x : Reading α} {f : α → Reading β} {Q : β → Cursor → Prop}
    (h : Lands x c fun a c₁ => Lands (f a) c₁ Q) : Lands (x >>= f) c Q := by
  intro s b c' s' hx
  obtain ⟨a, c₁, s₁, ha, hx⟩ := eq_ok_of_bind hx
  exact h s a c₁ s₁ ha s₁ b c' s' hx

/-- Changing the result. -/
theorem map {x : Reading α} {f : α → β} {Q : β → Cursor → Prop}
    (h : Lands x c fun a c' => Q (f a) c') : Lands (f <$> x) c Q := by
  intro s b c' s' hx
  obtain ⟨p, s₁, hp, hx⟩ := ok_of_bind (x := x c) (f := fun p => pure (f p.1, p.2)) hx
  cases hx
  exact h s p.1 p.2 _ hp

/-- A reading that fails lands nowhere. -/
protected theorem throw {halt : Halt} {Q : α → Cursor → Prop} :
    Lands (throw halt) c Q := by
  intro s a c' s' hx
  cases hx

/-- So does one that fails at a place. -/
theorem raiseAt {span : Span} {cause : Cause} {Q : α → Cursor → Prop} :
    Lands (Reading.raiseAt span cause) c Q :=
  .throw

/-- Adding places to faults changes nothing for a reading that succeeds. -/
theorem locate {x : Reading α} {span : Span} {Q : α → Cursor → Prop} (h : Lands x c Q) :
    Lands (Reading.locate span x) c Q := by
  intro s a c' s' hx
  exact h s a c' s' (locate_eq_ok_iff.mp hx)

/-- An evaluation that reads nothing, and whose results are known. -/
theorem lift_of_yields {x : Eval α} {P : α → Prop} {Q : α → Cursor → Prop} (h : x.Yields P)
    (hQ : ∀ a, P a → Q a c) : Lands (liftM x : Reading α) c Q := by
  intro s a c' s' hx
  obtain ⟨a', s₁, ha, hx⟩ := ok_of_bind (x := x) (f := fun a => pure (a, c)) hx
  cases hx
  exact hQ _ (h _ _ _ ha)

/-- An evaluation that reads nothing leaves the cursor where it is. -/
theorem lift {x : Eval α} {Q : α → Cursor → Prop} (h : ∀ a, Q a c) :
    Lands (liftM x : Reading α) c Q :=
  lift_of_yields (P := fun _ => True) (fun _ _ _ _ => trivial) fun a _ => h a

/-- Looking at the cursor. -/
protected theorem get {Q : Cursor → Cursor → Prop} (h : Q c c) :
    Lands (MonadState.get : Reading Cursor) c Q :=
  .pure h

/-! ### Steps -/

/-- Looking at the next token. -/
theorem peek {Q : Option Token → Cursor → Prop} (h : Q c.peek c) : Lands Reading.peek c Q :=
  .pure h

/-- Looking at the kind of the next token. -/
theorem peekKind {Q : Option Kind → Cursor → Prop} (h : Q c.ahead c) :
    Lands Reading.peekKind c Q :=
  .pure (c.peek_map_kind ▸ h)

/-- The place of the next token. -/
theorem here {Q : Span → Cursor → Prop} (h : Q c.here c) : Lands Reading.here c Q :=
  .pure h

/-- A scan. -/
theorem scan {x : Scan α} {Q : α → Cursor → Prop} (h : ∀ a c', x c = .ok a c' → Q a c') :
    Lands (Reading.scan x) c Q := by
  intro s a c' s' hx
  unfold Reading.scan at hx
  split at hx
  · rename_i hx'
    cases hx
    exact h _ _ hx'
  · cases hx

/-- Stepping over the next token, if there is one. -/
theorem next {Q : Option Token → Cursor → Prop} (hnone : c.next? = none → Q none c)
    (hsome : ∀ token c', c.next? = some (token, c') → Q (some token) c') :
    Lands Reading.next c Q := by
  refine scan fun a c' hx => ?_
  cases hnext : c.next? with
  | none =>
    rw [Scan.next_of_none hnext] at hx
    cases hx
    exact hnone hnext
  | some p =>
    rw [Scan.next_of_some hnext] at hx
    cases hx
    exact hsome _ _ hnext

/-- Stepping over a token that is known. -/
theorem next_of_reads {kind : Kind} {c₁ : Cursor} (hreads : Reads c [kind] c₁)
    {Q : Option Token → Cursor → Prop} (h : ∀ token, token.kind = kind → Q (some token) c₁) :
    Lands Reading.next c Q := by
  obtain ⟨token, c₂, hnext, hkind, hend⟩ := hreads.of_cons
  cases hend
  refine next (fun hnone => ?_) fun token' c' hnext' => ?_
  · rw [hnext] at hnone
    cases hnone
  · rw [hnext] at hnext'
    cases hnext'
    exact h token hkind

/-- Stepping over a token of one kind, if it is next. -/
theorem accept {kind : Kind} {Q : Bool → Cursor → Prop}
    (htrue : ∀ c', Reads c [kind] c' → Q true c') (hfalse : c.ahead ≠ some kind → Q false c) :
    Lands (Reading.accept kind) c Q := by
  refine scan fun a c' hx => ?_
  by_cases hc : c.ahead = some kind
  · obtain ⟨c₁, hreads⟩ := Cursor.reads_of_ahead hc
    rw [Scan.accept_of_reads hreads] at hx
    cases hx
    exact htrue _ hreads
  · rw [Scan.accept_of_ne hc] at hx
    cases hx
    exact hfalse hc

/-- Stepping over a token that has to be there. -/
theorem expect {kind : Kind} {what : String} {Q : Unit → Cursor → Prop}
    (h : ∀ c', Reads c [kind] c' → Q () c') : Lands (Reading.expect kind what) c Q := by
  refine .bind (scan fun token c' hx => .pure (h c' ?_))
  exact Scan.reads_of_expect hx

/-- The result of an operator. -/
theorem computed {span : Span} {result : Except Cause Value} {Q : Value → Cursor → Prop}
    (h : ∀ v, Q v c) : Lands (Reading.computed span result) c Q := by
  cases result with
  | ok value => exact .pure (h value)
  | error cause => exact .raiseAt

end Lands

end Reading

end Tern
