import Tern.Proofs.Statement.Code

/-!
# Bounds on the bodies of functions

How much fuel the execution from tokens takes depends on how long the bodies of the functions are
that it calls, and functions may come from anywhere. `Code.execWithin` bounds the length of bodies:
a longer one counts as running out of fuel. Every execution that comes to an end calls finitely
many functions only, so it is not affected by a bound that is large enough.

## Key results

- `Eval.Approaches.bind`, `Eval.Approaches.iterate`: the combinators keep approximation
- `Code.approaches`: the execution of a tree is approached if calls are
- `Code.execWithin_approaches`: large bounds make no difference
-/

namespace Tern

namespace Eval

/-- If `y` comes to an end, then so do all but finitely many of the `x k`, and in the same way. -/
def Approaches (x : Nat → Eval α) (y : Eval α) : Prop :=
  ∀ s, (∀ s', y s ≠ .error .outOfFuel s') → ∃ n, ∀ k, n ≤ k → x k s = y s

namespace Approaches

variable {x : Nat → Eval α} {y : Eval α}

/-- What does not depend on the bound. -/
protected theorem refl (y : Eval α) : Approaches (fun _ => y) y :=
  fun _ _ => ⟨0, fun _ _ => rfl⟩

/-- Evaluations in sequence. -/
protected theorem bind {f : Nat → α → Eval β} {g : α → Eval β} (hx : Approaches x y)
    (hf : ∀ a, Approaches (fun k => f k a) (g a)) :
    Approaches (fun k => x k >>= f k) (y >>= g) := by
  intro s hends
  simp only [Bind.bind, EStateM.bind] at hends ⊢
  -- by how the first half ends without a bound
  cases hy : y s with
  | ok a s₁ =>
    rw [hy] at hends
    obtain ⟨n, hn⟩ := hx s (by simp [hy])
    obtain ⟨m, hm⟩ := hf a s₁ hends
    -- from the larger bound on both halves are what they are without one
    refine ⟨max n m, fun k hk => ?_⟩
    rw [hn k (Nat.le_trans (Nat.le_max_left n m) hk), hy]
    exact hm k (Nat.le_trans (Nat.le_max_right n m) hk)
  -- a first half that fails is the whole, so its bound is enough
  | error halt s₁ =>
    rw [hy] at hends
    obtain ⟨n, hn⟩ := hx s fun s' hstarved => by
      rw [hy] at hstarved
      cases hstarved
      exact hends s₁ rfl
    refine ⟨n, fun k hk => ?_⟩
    rw [hn k hk, hy]

/-- Something is done to the end of an evaluation that makes up for no missing fuel. -/
private theorem ending (hx : Approaches x y) (change : Eval α → Eval α)
    (hsame : ∀ x y s, x s = y s → change x s = change y s)
    (hstarved : ∀ x s s', x s = .error .outOfFuel s' → ∃ t, change x s = .error .outOfFuel t) :
    Approaches (fun k => change (x k)) (change y) := by
  intro s hends
  obtain ⟨n, hn⟩ := hx s fun s' hy => by
    obtain ⟨t, ht⟩ := hstarved y s s' hy
    exact hends t ht
  exact ⟨n, fun k hk => hsame _ _ s (hn k hk)⟩

private theorem afterwards (change : Session → Session) (hx : Approaches x y) :
    Approaches (fun k => Eval.afterwards (x k) change) (Eval.afterwards y change) := by
  refine hx.ending (Eval.afterwards · change) (fun x y s h => ?_) fun x s s' h => ?_
  · simp only [Eval.afterwards, h]
  · exact ⟨change s', by simp only [Eval.afterwards, h]⟩

private theorem adaptFault (change : Fault → Fault) (hx : Approaches x y) :
    Approaches (fun k => EStateM.adaptExcept (Halt.mapFault change) (x k))
      (EStateM.adaptExcept (Halt.mapFault change) y) := by
  refine hx.ending (EStateM.adaptExcept (Halt.mapFault change)) (fun x y s h => ?_)
    fun x s s' h => ?_
  · simp only [EStateM.adaptExcept, h]
  · exact ⟨s', by simp only [EStateM.adaptExcept, h, Halt.mapFault]⟩

/-- A scope of its own. -/
theorem inScope (hx : Approaches x y) :
    Approaches (fun k => Eval.inScope (x k)) (Eval.inScope y) :=
  .bind (.refl _) fun _ => hx.afterwards _

/-- A call. -/
theorem inCall (name : String) (hx : Approaches x y) :
    Approaches (fun k => Eval.inCall name (x k)) (Eval.inCall name y) :=
  .bind (.refl _) fun _ => (hx.afterwards _).adaptFault _

/-- Loops. -/
theorem iterate {body : Nat → Nat → Eval (Option α)} {body' : Nat → Eval (Option α)}
    {atEnd : Eval α} (hbody : ∀ i, Approaches (fun k => body k i) (body' i)) (index count : Nat) :
    Approaches (fun k => Eval.iterate (body k) atEnd index count)
      (Eval.iterate body' atEnd index count) := by
  induction count generalizing index with
  | zero => exact .refl atEnd
  | succ count ih =>
    simp only [iterate_succ]
    refine .bind (hbody index) fun result => ?_
    cases result with
    | some a => exact .refl _
    | none => exact ih (index + 1)

end Approaches

end Eval

open Eval (Approaches)

section

variable {call : Nat → Callable → List Value → Eval Value}
  {call' : Callable → List Value → Eval Value}
  (hcall : ∀ f vs, Approaches (fun k => call k f vs) (call' f vs))

include hcall

/-- The evaluation of a tree is approached if calls are. -/
theorem Tree.approaches (t : Tree form) : Approaches (fun k => t.eval (call k)) (t.eval call') := by
  -- along the tree: what needs no call is the same under every bound
  induction t with
  | number | text | truth | read | step => exact .refl _
  | group inner ih => exact ih
  | callNone name => exact .bind (.refl _) fun f => hcall f []
  | call name arguments ih => exact .bind (.refl _) fun f => .bind ih fun vs => hcall f vs
  | assign name value ih =>
    refine .bind (.refl _) fun b => ?_
    split
    · exact .refl _
    · exact .bind ih fun _ => .refl _
  | unary op operand ih => exact .bind ih fun _ => .refl _
  | binary op left right ih ih' => exact .bind ih fun _ => .bind ih' fun _ => .refl _
  | last argument ih => exact .bind ih fun _ => .refl _
  | more argument others ih ih' => exact .bind ih fun _ => .bind ih' fun _ => .refl _

/-- The execution of a tree is approached if calls are. -/
theorem Code.approaches (code : Code part) (rounds : Nat) (outermost : Bool) :
    Approaches (fun k => code.exec (call k) rounds outermost)
      (code.exec call' rounds outermost) := by
  -- whatever the loop, a round is approached with its body
  have hround : ∀ {x : Nat → Eval (Option Value)} {y : Eval (Option Value)}, Approaches x y →
      Approaches (fun k => do return (← Eval.inScope (x k)).map some)
        (do return (← Eval.inScope y).map some) :=
    fun hx => .bind hx.inScope fun _ => .refl _
  have hexpression := fun e : Tree .expression => e.approaches hcall
  -- along the code: a bound is only felt where something is called
  induction code generalizing outermost with
  | assertion e => exact .bind (hexpression e) fun _ => .refl _
  | counted e body ih =>
    exact .bind (hexpression e) fun _ => .bind (.refl _) fun _ =>
      .iterate (fun _ => hround (ih false)) _ _
  | whileLoop e body ih =>
    refine .iterate (fun _ => .bind (hexpression e) fun v => ?_) _ _
    split
    · exact hround (ih false)
    · exact .refl _
  | range first limit name? body ih =>
    refine .bind (hexpression first) fun _ => .bind (.refl _) fun _ => ?_
    refine .bind (hexpression limit) fun _ => .bind (.refl _) fun _ => ?_
    refine .iterate (fun _ => hround ?_) _ _
    cases name? with
    | some name => exact .bind (.refl _) fun _ => ih false
    | none => exact ih false
  | conditional arms ih => exact ih false
  | declaration isFinal name typing e => exact .bind (hexpression e) fun _ => .refl _
  | definition => exact .refl _
  | expression e => exact .bind (hexpression e) fun _ => .refl _
  | returning value? =>
    simp only [exec]
    split
    · exact .refl _
    · cases value? with
      | some e => exact .bind (hexpression e) fun _ => .refl _
      | none => exact .refl _
  | lone e body ih =>
    refine .bind (hexpression e) fun v => ?_
    split
    · exact (ih false).inScope
    · exact .refl _
  | orElse e body others ih ih' =>
    refine .bind (hexpression e) fun v => ?_
    split
    · exact (ih false).inScope
    · exact (ih' false).inScope
  | orIf e body others ih ih' =>
    refine .bind (hexpression e) fun v => ?_
    split
    · exact (ih false).inScope
    · exact ih' false
  | done => exact .refl _
  -- rows go on with what the first statement has returned
  | next first rest ih ih' =>
    refine .bind (ih outermost) fun returned => ?_
    cases returned with
    | some value => exact .refl _
    | none => exact ih' outermost

end

/-- Calls are approached if the execution of bodies is. -/
theorem Eval.callWith_approaches {execute : Nat → List Token → Eval (Option Value)}
    {execute' : List Token → Eval (Option Value)}
    (h : ∀ tokens, Approaches (fun k => execute k tokens) (execute' tokens)) (f : Callable)
    (vs : List Value) : Approaches (fun k => callWith (execute k) f vs) (callWith execute' f vs) := by
  unfold callWith
  split
  · exact .refl _
  · exact .refl _
  · rename_i tokens _
    refine .bind (.refl _) fun _ => .bind (.refl _) fun s => ?_
    split
    · exact .refl _
    · exact .bind (.inCall _ (.inScope (.bind (.refl _) fun _ => h tokens))) fun _ => .refl _

namespace Code

/-- Executes the body of a function, if neither it nor one that it calls has more than `bound`
tokens. -/
noncomputable def execWithin (bound : Nat) :
    (fuel : Nat) → (tokens : List Token) → Eval (Option Value)
  | 0, _ => throw .outOfFuel
  | fuel + 1, tokens =>
    if bound < (Token.bare tokens).length then throw .outOfFuel
    else execTokens (Eval.callWith (execWithin bound fuel)) fuel tokens

/-- Large bounds make no difference. -/
theorem execWithin_approaches (fuel : Nat) (tokens : List Token) :
    Approaches (fun bound => execWithin bound fuel tokens) (execBody fuel tokens) := by
  -- on fuel, one call deep at a time
  induction fuel generalizing tokens with
  | zero => exact .refl _
  | succ fuel ih =>
    have hbody : Approaches
        (fun bound => execTokens (Eval.callWith (execWithin bound fuel)) fuel tokens)
        (execTokens (Eval.callWith (execBody fuel)) fuel tokens) := by
      unfold execTokens
      split
      · exact approaches (Eval.callWith_approaches ih) _ fuel false
      · exact .refl _
    -- large enough for the body and for the bound to let its tokens pass
    intro s hends
    obtain ⟨n, hn⟩ := hbody s hends
    refine ⟨max n (Token.bare tokens).length, fun bound hbound => ?_⟩
    have hlength := Nat.le_trans (Nat.le_max_right n _) hbound
    simp only [execWithin, if_neg (Nat.not_lt.mpr hlength)]
    exact hn bound (Nat.le_trans (Nat.le_max_left n _) hbound)

end Code

end Tern
