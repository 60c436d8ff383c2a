import Tern.Proofs.Preservation
import Tern.Proofs.View

/-!
# Agreement of two evaluations

Most facts about evaluation compare two runs: with less and with more fuel, over two token
sequences, or over tokens and over a syntax tree. This file holds the part that all comparisons
share. A `Tolerance` says what may differ between the two runs, and `Eval.Agree` says that two
evaluations, started in sessions that differ by no more than that, end in the same way.

## Key results

- `Eval.Agree.bind`: evaluations that agree may be sequenced
- `Eval.Agree.resolve`, `Eval.Agree.define`, `Eval.Agree.assign`: so do the operations on variables
- `Eval.Agree.inScope`, `Eval.Agree.inCall`, `Eval.Agree.iterate`: the combinators keep agreement
- `Eval.AgreeAt.bind`: agreement may depend on whether the root is the only scope
-/

namespace Tern

/-- What may differ between two evaluations that are compared. -/
structure Tolerance where
  /-- What is compared of the bodies of functions. -/
  view : List Token → List Token
  /-- Whether the places of faults are compared. -/
  places : Prop
  /-- How the settings and what has happened so far may differ. -/
  outside : Settings → List Event → Settings → List Event → Prop
  /-- Whether the first evaluation may run out of fuel where the second does not. -/
  firstStarves : Prop
  /-- Whether the second evaluation may run out of fuel where the first does not. -/
  secondStarves : Prop

namespace Tolerance

variable (T : Tolerance)

/-- Faults that count as the same. -/
structure Faults (f g : Fault) : Prop where
  cause : f.cause = g.cause
  unwound : f.unwound = g.unwound
  span : T.places → f.span = g.span

/-- Every fault counts as itself. -/
theorem Faults.refl {T : Tolerance} (f : Fault) : T.Faults f f := ⟨rfl, rfl, fun _ => rfl⟩

/-- Values that count as the same. -/
def Values (v w : Value) : Prop := v.viewed T.view = w.viewed T.view

/-- Lists of values that count as the same. -/
def Lists (vs ws : List Value) : Prop :=
  vs.map (·.viewed T.view) = ws.map (·.viewed T.view)

/-- A routine of the host that cannot tell arguments apart that count as the same. -/
def Respects (routine : Routine) : Prop :=
  ∀ vs ws, T.Lists vs ws →
    match routine vs, routine ws with
    | .ok v, .ok w => T.Values v w
    | .error f, .error g => T.Faults f g
    | _, _ => False

/-- Where places are not compared, faults need the same cause and the same calls only. -/
theorem respects_iff {T : Tolerance} (hplaces : ¬T.places) {routine : Routine} :
    T.Respects routine ↔ ∀ vs ws, T.Lists vs ws →
      match routine vs, routine ws with
      | .ok v, .ok w => T.Values v w
      | .error f, .error g => f.cause = g.cause ∧ f.unwound = g.unwound
      | _, _ => False := by
  have hfaults (f g : Fault) : T.Faults f g ↔ f.cause = g.cause ∧ f.unwound = g.unwound :=
    ⟨fun h => ⟨h.cause, h.unwound⟩, fun h => ⟨h.1, h.2, fun hT => absurd hT hplaces⟩⟩
  simp only [Respects, hfaults]

/-- A routine that looks at nothing but the number of its arguments. -/
theorem respects_of_length {T : Tolerance} (answer : Nat → Except Fault Value) :
    T.Respects fun arguments => answer arguments.length := by
  intro vs ws hargs
  have hlength : vs.length = ws.length := by simpa using congrArg List.length hargs
  simp only [hlength]
  cases answer ws.length with
  | ok v => exact rfl
  | error f => exact .refl f

/-- Sessions that count as the same. -/
structure Sessions (s t : Session) : Prop where
  env : s.env.viewed T.view = t.env.viewed T.view
  outside : T.outside s.settings s.transcript t.settings t.transcript
  callDepth : s.callDepth = t.callDepth
  nextId : s.nextId = t.nextId
  routines : s.routines = t.routines
  respected : ∀ routine ∈ s.routines, T.Respects routine

/-- A name stands for variables that count as the same, or for none in either session. -/
theorem Sessions.lookup {T : Tolerance} {s t : Session} (h : T.Sessions s t) (name : String) :
    Option.Rel (fun b b' => b.viewed T.view = b'.viewed T.view) (s.env.lookup name)
      (t.env.lookup name) := by
  -- the two bindings look the same, since the environments do
  have heq : (s.env.lookup name).map (·.viewed T.view) =
      (t.env.lookup name).map (·.viewed T.view) := by
    rw [← Environment.lookup_viewed, ← Environment.lookup_viewed, h.env]
  generalize s.env.lookup name = found, t.env.lookup name = found' at heq
  cases found with
  | none =>
    cases found' with
    | none => exact .none
    | some b' => cases heq
  | some b =>
    cases found' with
    | none => cases heq
    | some b' => exact .some (Option.some.inj heq)

/-- Two ends of evaluations that count as the same, given which results do. -/
inductive Ends (R : α → β → Prop) :
    EStateM.Result Halt Session α → EStateM.Result Halt Session β → Prop
  | ok {a b s t} : R a b → T.Sessions s t → Ends R (.ok a s) (.ok b t)
  | fault {f g s t} : T.Faults f g → T.Sessions s t →
      Ends R (.error (.fault f) s) (.error (.fault g) t)
  | first {s y} : T.firstStarves → Ends R (.error .outOfFuel s) y
  | second {x t} : T.secondStarves → Ends R x (.error .outOfFuel t)

variable {T}

/-- More results count as the same. -/
theorem Ends.mono {R R' : α → β → Prop} {x : EStateM.Result Halt Session α}
    {y : EStateM.Result Halt Session β} (h : T.Ends R x y) (hR : ∀ a b, R a b → R' a b) :
    T.Ends R' x y := by
  cases h with
  | ok hab hst => exact .ok (hR _ _ hab) hst
  | fault hfg hst => exact .fault hfg hst
  | first hT => exact .first hT
  | second hT => exact .second hT

/-- What is made of evaluations that may have no result counts as the same if they do. -/
theorem Ends.getD {x y : Eval (Option Value)} {s t : Session}
    (h : T.Ends (Option.Rel T.Values) (x s) (y t)) :
    T.Ends T.Values ((do return (← x).getD .void : Eval Value) s)
      ((do return (← y).getD .void : Eval Value) t) := by
  simp only [Bind.bind, EStateM.bind]
  -- what is used of the two evaluations is that their ends agree
  generalize x s = p, y t = p' at h ⊢
  cases h with
  | ok hab hst =>
    cases hab with
    | some hvw => exact .ok hvw hst
    | none => exact .ok rfl hst
  | fault hF hst => exact .fault hF hst
  | first hT => exact .first hT
  | second hT => exact .second hT

/-- A fault that is raised with its place agrees with the same fault without one, unless places
are compared. -/
theorem Faults.of_cause {cause : Cause} {span span' : Option Span}
    (h : T.places → span = span') : T.Faults { cause, span } { cause, span := span' } :=
  ⟨rfl, rfl, h⟩

/-- Adding places to faults. -/
theorem Faults.located {f g : Fault} (h : T.Faults f g) {span span' : Span}
    (hs : T.places → span = span') : T.Faults (f.located span) (g.located span') :=
  ⟨h.cause, h.unwound, fun hp => by simp only [Fault.located, h.span hp, hs hp]⟩

/-- Leaving a function. -/
theorem Faults.leaving {f g : Fault} (h : T.Faults f g) (name : String) :
    T.Faults (f.leaving name) (g.leaving name) :=
  ⟨h.cause, congrArg (name :: ·) h.unwound, h.span⟩

end Tolerance

namespace Eval

/-- Goes on with the variable of that name, or without one. -/
def resolve (name : String) (absent : Eval α) (present : Variable → Eval α) : Eval α :=
  fun s => (s.env.lookup name).elim absent present s

/-- Started in sessions that count as the same, both evaluations end in the same way. -/
def Agree (T : Tolerance) (R : α → β → Prop) (x : Eval α) (y : Eval β) : Prop :=
  ∀ s t, T.Sessions s t → T.Ends R (x s) (y t)

/-- The same for sessions in which the root is the only scope, or in which it is not. -/
def AgreeAt (T : Tolerance) (root : Bool) (R : α → β → Prop) (x : Eval α) (y : Eval β) : Prop :=
  ∀ s t, T.Sessions s t → s.env.atRoot = root → T.Ends R (x s) (y t)

namespace Agree

variable {T : Tolerance} {R : α → β → Prop} {S : γ → δ → Prop}

/-- Results that count as the same agree. -/
protected theorem pure {a : α} {b : β} (h : R a b) : Agree T R (pure a) (pure b) :=
  fun _ _ hst => .ok h hst

/-- Faults that count as the same agree. -/
theorem fault {f g : Fault} (h : T.Faults f g) :
    Agree T R (throw (.fault f)) (throw (.fault g)) :=
  fun _ _ hst => .fault h hst

/-- Running out of fuel agrees with anything if the first evaluation may do so. -/
theorem starved {y : Eval β} (h : T.firstStarves) :
    Agree T R (throw .outOfFuel : Eval α) y :=
  fun _ _ _ => .first h

/-- Running out of fuel agrees with anything if the second evaluation may do so. -/
theorem starving {x : Eval α} (h : T.secondStarves) :
    Agree T R x (throw .outOfFuel : Eval β) :=
  fun _ _ _ => .second h

/-- Agreement survives when more results count as the same. -/
theorem mono {R' : α → β → Prop} {x : Eval α} {y : Eval β} (h : Agree T R x y)
    (hR : ∀ a b, R a b → R' a b) : Agree T R' x y :=
  fun s t hst => (h s t hst).mono hR

/-- Evaluations that agree, followed by evaluations that agree on what the first ones give. -/
protected theorem bind {x : Eval α} {y : Eval β} {f : α → Eval γ} {g : β → Eval δ}
    (h : Agree T R x y) (hfg : ∀ a b, R a b → Agree T S (f a) (g b)) :
    Agree T S (x >>= f) (y >>= g) := by
  intro s t hst
  have hends := h s t hst
  simp only [Bind.bind, EStateM.bind]
  generalize x s = r, y t = q at hends ⊢
  cases hends with
  | ok hab hst' => exact hfg _ _ hab _ _ hst'
  | fault hF hst' => exact .fault hF hst'
  | first hT => exact .first hT
  | second hT =>
    -- the second evaluation stays out of fuel, whatever the first one does next
    exact .second hT

/-- Looking at the session agrees with looking at the session. -/
protected theorem get :
    Agree T T.Sessions (MonadState.get : Eval Session) (MonadState.get : Eval Session) :=
  fun _ _ hst => .ok hst hst

/-- Changes of the session that keep it the same agree. -/
protected theorem modify {f g : Session → Session}
    (h : ∀ s t, T.Sessions s t → T.Sessions (f s) (g t)) :
    Agree T (fun _ _ => True) (modify f : Eval Unit) (modify g : Eval Unit) :=
  fun s t hst => .ok trivial (h s t hst)

/-- Changes to faults that keep them the same keep agreement. -/
theorem adaptFault {x : Eval α} {y : Eval β} {f g : Fault → Fault} (h : Agree T R x y)
    (hfg : ∀ a b, T.Faults a b → T.Faults (f a) (g b)) :
    Agree T R (EStateM.adaptExcept (Halt.mapFault f) x)
      (EStateM.adaptExcept (Halt.mapFault g) y) := by
  intro s t hst
  have hends := h s t hst
  simp only [EStateM.adaptExcept]
  generalize x s = r, y t = q at hends ⊢
  cases hends with
  | ok hab hst' => exact .ok hab hst'
  | fault hF hst' => exact .fault (hfg _ _ hF) hst'
  | first hT => exact .first hT
  | second hT => exact .second hT

/-- A place that is added on one side makes no difference where places are not compared. -/
theorem locate_first {x : Eval α} {y : Eval β} {span : Span} (hT : ¬T.places)
    (h : Agree T R x y) : Agree T R (Eval.locate span x) y := by
  intro s t hst
  have hends := h s t hst
  simp only [Eval.locate, EStateM.adaptExcept]
  generalize x s = r, y t = q at hends ⊢
  cases hends with
  | ok hab hst' => exact .ok hab hst'
  | fault hF hst' => exact .fault ⟨hF.cause, hF.unwound, fun hp => absurd hp hT⟩ hst'
  | first hT => exact .first hT
  | second hT => exact .second hT

/-- Changes to the session at the end keep agreement. -/
theorem afterwards {x : Eval α} {y : Eval β} {f g : Session → Session} (h : Agree T R x y)
    (hfg : ∀ s t, T.Sessions s t → T.Sessions (f s) (g t)) :
    Agree T R (Eval.afterwards x f) (Eval.afterwards y g) := by
  intro s t hst
  have hends := h s t hst
  simp only [Eval.afterwards]
  generalize x s = r, y t = q at hends ⊢
  cases hends with
  | ok hab hst' => exact .ok hab (hfg _ _ hst')
  | fault hF hst' => exact .fault hF (hfg _ _ hst')
  | first hT => exact .first hT
  | second hT => exact .second hT

/-- Loops agree if their rounds do and what follows them does. -/
theorem iterate {body : Nat → Eval (Option α)} {body' : Nat → Eval (Option β)}
    {atEnd : Eval α} {atEnd' : Eval β}
    (hbody : ∀ i, Agree T (Option.Rel R) (body i) (body' i)) (hend : Agree T R atEnd atEnd')
    (index count : Nat) :
    Agree T R (Eval.iterate body atEnd index count) (Eval.iterate body' atEnd' index count) := by
  induction count generalizing index with
  | zero => exact hend
  | succ count ih =>
    rw [iterate_succ, iterate_succ]
    refine .bind (hbody index) fun a b hab => ?_
    cases hab with
    | some h => exact .pure h
    | none => exact ih (index + 1)

/-- Loops that end only by a result agree if their rounds do, and if the one that may go round less
often may run out of fuel. -/
theorem iterate_rounds {body : Nat → Eval (Option α)} {body' : Nat → Eval (Option β)}
    (hbody : ∀ i, Agree T (Option.Rel R) (body i) (body' i)) {count count' : Nat}
    (hcount : T.firstStarves ∧ count ≤ count' ∨ T.secondStarves ∧ count' ≤ count) (index : Nat) :
    Agree T R (Eval.iterate body (throw .outOfFuel) index count)
      (Eval.iterate body' (throw .outOfFuel) index count') := by
  -- where one loop stops and the other goes on, the one that stops may starve
  induction count generalizing index count' with
  | zero =>
    -- one loop is out of rounds: by its count it is the one that may be
    rcases hcount with ⟨hT, -⟩ | ⟨hT, hle⟩
    · exact starved hT
    · obtain rfl : count' = 0 := Nat.le_zero.mp hle
      exact starving hT
  | succ count ih =>
    cases count' with
    | zero =>
      rcases hcount with ⟨-, hle⟩ | ⟨hT, -⟩
      · exact absurd hle (Nat.not_succ_le_zero count)
      · exact starving hT
    | succ count' =>
      -- both do one round more, and go on only if both rounds say so
      rw [iterate_succ, iterate_succ]
      refine .bind (hbody index) fun a b hab => ?_
      cases hab with
      | some h => exact .pure h
      | none =>
        refine ih (hcount.imp ?_ ?_) (index + 1)
        · exact fun ⟨hT, hle⟩ => ⟨hT, Nat.le_of_succ_le_succ hle⟩
        · exact fun ⟨hT, hle⟩ => ⟨hT, Nat.le_of_succ_le_succ hle⟩

/-! ### Variables -/

/-- Going on with variables that count as the same. -/
theorem resolve (name : String) {x : Eval α} {y : Eval β} {f : Variable → Eval α}
    {g : Variable → Eval β} (habsent : Agree T R x y)
    (hpresent : ∀ b b', b.viewed T.view = b'.viewed T.view → Agree T R (f b) (g b')) :
    Agree T R (Eval.resolve name x f) (Eval.resolve name y g) := by
  intro s t hst
  have hlookup := hst.lookup name
  unfold Eval.resolve
  generalize s.env.lookup name = found, t.env.lookup name = found' at hlookup
  cases hlookup with
  | none => exact habsent s t hst
  | some hb => exact hpresent _ _ hb s t hst

/-- Taking over environments that count as the same. -/
private theorem updateEnv {s t : Session} (hst : T.Sessions s t) (name : String)
    {got got' : String} (hgot : got = got') {x y : Except Refusal Environment}
    (h : x.map (·.viewed T.view) = y.map (·.viewed T.view)) :
    T.Ends (fun _ _ => True) (Eval.updateEnv name got x s) (Eval.updateEnv name got' y t) := by
  subst hgot
  -- both take the change or both refuse it, and for the same reason
  cases x with
  | ok env =>
    cases y with
    | ok env' => exact .ok trivial { hst with env := Except.ok.inj h }
    | error refusal => cases h
  | error refusal =>
    cases y with
    | ok env' => cases h
    | error refusal' =>
      cases h
      exact .fault (.of_cause fun _ => rfl) hst

/-- Declaring a variable. -/
theorem define (name : String) {b b' : Variable} (h : b.viewed T.view = b'.viewed T.view) :
    Agree T (fun _ _ => True) (Eval.define name b) (Eval.define name b') := by
  intro s t hst
  refine updateEnv hst name ?_ ?_
  · have hvalue := congrArg (·.value.typeName) h
    simpa using hvalue
  · rw [← Environment.define_viewed, ← Environment.define_viewed, hst.env, h]

/-- Assigning to a variable. -/
theorem assign (name : String) {v w : Value} (h : T.Values v w) :
    Agree T (fun _ _ => True) (Eval.assign name v) (Eval.assign name w) := by
  intro s t hst
  refine updateEnv hst name ?_ ?_
  · have hvalue := congrArg Value.typeName h
    simpa using hvalue
  · rw [← Environment.assign_viewed, ← Environment.assign_viewed, hst.env, h]

/-! ### Scopes and calls -/

/-- Running in a new scope, which is not the root. -/
theorem inScope_of {x : Eval α} {y : Eval β} (h : AgreeAt T false R x y) :
    Agree T R (Eval.inScope x) (Eval.inScope y) := by
  intro s t hst
  have hpush : T.Sessions { s with env := s.env.push } { t with env := t.env.push } := by
    refine { hst with env := ?_ }
    rw [← Environment.viewed_push, ← Environment.viewed_push, hst.env]
  have hinner : Agree T R (fun _ => x { s with env := s.env.push })
      (fun _ => y { t with env := t.env.push }) := fun _ _ _ => h _ _ hpush rfl
  refine (afterwards hinner fun u v huv => ?_) s t hst
  refine { huv with env := ?_ }
  rw [← Environment.viewed_pop, ← Environment.viewed_pop, huv.env]

/-- Running in a new scope. -/
theorem inScope {x : Eval α} {y : Eval β} (h : Agree T R x y) :
    Agree T R (Eval.inScope x) (Eval.inScope y) :=
  inScope_of fun s t hst _ => h s t hst

/-- Running as the body of a function. -/
theorem inCall (name : String) {x : Eval α} {y : Eval β} (h : Agree T R x y) :
    Agree T R (Eval.inCall name x) (Eval.inCall name y) := by
  refine .bind (.modify fun s t hst => { hst with callDepth := ?_ }) fun _ _ _ =>
    adaptFault (afterwards h fun s t hst => { hst with callDepth := ?_ })
      fun _ _ hfg => hfg.leaving name
  · rw [hst.callDepth]
  · rw [hst.callDepth]

end Agree

namespace AgreeAt

variable {T : Tolerance} {root : Bool} {R : α → β → Prop} {S : γ → δ → Prop} {x : Eval α}
  {y : Eval β} {f : α → Eval γ} {g : β → Eval δ}

/-- Evaluations in sequence, of which the second agree anywhere. -/
theorem andThen (h : AgreeAt T root R x y) (hfg : ∀ a b, R a b → Agree T S (f a) (g b)) :
    AgreeAt T root S (x >>= f) (y >>= g) := by
  intro s t hst hroot
  have hfirst : Agree T R (fun _ => x s) (fun _ => y t) := fun _ _ _ => h s t hst hroot
  exact Agree.bind hfirst hfg s t hst

/-- Evaluations in sequence, of which the first leaves as many scopes as it found. -/
protected theorem bind (h : AgreeAt T root R x y) (hx : Keeps .nesting .statement x x)
    (hfg : ∀ a b, R a b → AgreeAt T root S (f a) (g b)) :
    AgreeAt T root S (x >>= f) (y >>= g) := by
  intro s t hst hroot
  have hends := h s t hst hroot
  -- a statement leaves the scopes as many as they were, so whether they are the root stays known
  have hdepth := (hx s trivial).2.1
  simp only [Bind.bind, EStateM.bind]
  generalize x s = r, y t = q at hends hdepth ⊢
  cases hends with
  | @ok _ _ s' _ hab hst' =>
    refine hfg _ _ hab _ _ hst' ?_
    have hdepth : s'.env.depth = s.env.depth := hdepth
    rw [← hroot, Bool.eq_iff_iff, Environment.atRoot_iff, Environment.atRoot_iff, hdepth]
  | fault hF hst' => exact .fault hF hst'
  | first hT => exact .first hT
  | second hT => exact .second hT

end AgreeAt

end Eval

end Tern
