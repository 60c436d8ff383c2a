import Tern.Proofs.Congruence

/-!
# Fuel

Fuel decides whether an evaluation comes to an end, never how: what has ended with some fuel ends
in the same way with more.

## Key results

- `Tolerance.exact_sessions`: sessions that count as the same without tolerance are equal
- `Phrase.alike_of_literal`: more fuel makes no difference at corresponding cursors
- `Phrase.alike_of_le`: with more fuel all phrases do the same
- `Phrase.run_of_le`: more fuel keeps a finished answer
-/

namespace Tern

/-- The tolerance under which only equal sessions count as the same. -/
def Tolerance.exact (places firstStarves secondStarves : Prop) : Tolerance where
  view := id
  places := places
  outside σ es τ fs := σ = τ ∧ es = fs
  firstStarves := firstStarves
  secondStarves := secondStarves

namespace Tolerance

variable {p q r : Prop}

/-- Without tolerance only equal values count as the same. -/
@[simp] theorem exact_values {v w : Value} : (exact p q r).Values v w ↔ v = w := by
  simp [Values, exact]

/-- Without tolerance only equal lists count as the same. -/
@[simp] theorem exact_lists {vs ws : List Value} : (exact p q r).Lists vs ws ↔ vs = ws := by
  simp [Lists, exact]

/-- Without tolerance only equal sessions count as the same. -/
@[simp] theorem exact_sessions {s t : Session} : (exact p q r).Sessions s t ↔ s = t := by
  constructor
  · intro h
    obtain ⟨settings, env, callDepth, routines, nextId, transcript⟩ := s
    obtain ⟨henv, ⟨hsettings, htranscript⟩, hdepth, hid, hroutines, -⟩ := h
    simp only [exact, Environment.viewed_id] at henv
    cases t
    simp_all
  · rintro rfl
    -- routines of the host get the same arguments, so they give the same answers
    refine ⟨rfl, ⟨rfl, rfl⟩, rfl, rfl, rfl, fun routine _ vs ws h => ?_⟩
    obtain rfl := exact_lists.mp h
    cases routine vs with
    | ok v => exact .refl v
    | error f => exact .refl f

/-- Without tolerance only the same results of a phrase count as the same. -/
theorem exact_same {phrase : Phrase α} {a b : α} (h : phrase.Same (exact p q r) a b) : a = b := by
  have hoption : ∀ {x y : Option Value}, Option.Rel (exact p q r).Values x y → x = y := by
    intro x y hxy
    cases hxy with
    | some hvw => exact congrArg some (exact_values.mp hvw)
    | none => rfl
  cases phrase with
  | expression | additive | multiplicative | unary => exact exact_values.mp h
  | arguments => exact exact_lists.mp h
  | arms | statements => exact hoption h

/-- Without tolerance evaluations that end in the same way end equally. -/
theorem Ends.eq_of_exact {R : α → α → Prop} (hR : ∀ a b, R a b → a = b)
    {x y : EStateM.Result Halt Session α} (h : (exact True True False).Ends R x y)
    (hx : ∀ s, x ≠ .error .outOfFuel s) : y = x := by
  -- only an end that is not for want of fuel is to be compared
  cases h with
  | ok hab hst => rw [hR _ _ hab, exact_sessions.mp hst]
  | @fault f g _ _ hF hst =>
    obtain ⟨hcause, hunwound, hspan⟩ := hF
    have hfg : g = f := by
      cases f
      cases g
      simp_all [exact]
    rw [exact_sessions.mp hst, hfg]
  | first _ => exact absurd rfl (hx _)
  | second hT => exact hT.elim

/-- Without tolerance a comparison is kept when less is compared, or more may run out of fuel. -/
theorem Ends.weaken {p' q' r' : Prop} (hp : p' → p) (hq : q → q') (hr : r → r')
    {R : α → β → Prop} {x : EStateM.Result Halt Session α} {y : EStateM.Result Halt Session β}
    (h : (exact p q r).Ends R x y) : (exact p' q' r').Ends R x y := by
  cases h with
  | ok hab hst => exact .ok hab (exact_sessions.mpr (exact_sessions.mp hst))
  | fault hF hst =>
    exact .fault ⟨hF.cause, hF.unwound, fun h => hF.span (hp h)⟩
      (exact_sessions.mpr (exact_sessions.mp hst))
  | first hT => exact .first (hq hT)
  | second hT => exact .second (hr hT)

/-- Without tolerance the two sides of a comparison may be exchanged. -/
theorem Ends.symm {R : α → β → Prop} {x : EStateM.Result Halt Session α}
    {y : EStateM.Result Halt Session β} (h : (exact p q r).Ends R x y) :
    (exact p r q).Ends (fun b a => R a b) y x := by
  cases h with
  | ok hab hst => exact .ok hab (exact_sessions.mpr (exact_sessions.mp hst).symm)
  | fault hF hst =>
    exact .fault ⟨hF.cause.symm, hF.unwound.symm, fun h => (hF.span h).symm⟩
      (exact_sessions.mpr (exact_sessions.mp hst).symm)
  | first hT => exact .second hT
  | second hT => exact .first hT

end Tolerance

/-- The comparison that tolerates nothing, except that the first evaluation may run out of fuel. -/
def Alignment.exact : Alignment where
  toTolerance := .exact True True False
  Aligned := Eq
  next := by
    rintro c d rfl
    cases h : c.next? with
    | none => exact .inl ⟨rfl, rfl⟩
    | some p => exact .inr ⟨p.1, p.1, p.2, p.2, rfl, rfl, rfl, fun _ => rfl, rfl⟩
  here := by
    rintro c d rfl _
    rfl
  behind := by
    rintro c d rfl _
    rfl
  start h := congrArg Cursor.start h
  passed := by
    rintro c d c' d' _ _ _ _ rfl rfl _ _
    rfl
  quoted := by
    rintro c d c' d' _ _ rfl rfl _ _
    rfl
  maxCallDepth h := h.1 ▸ rfl
  print text h := by
    unfold Session.print
    rw [h.1]
    split
    · exact h
    · exact ⟨rfl, congrArg (_ :: ·) h.2⟩
  -- a pause reads its length from a variable, which is the same in both
  pace {s t} henv h := by
    have hglobal : s.global? Session.delayName = t.global? Session.delayName := by
      unfold Session.global?
      rw [← Environment.viewed_id s.env, ← Environment.viewed_id t.env]
      exact congrArg (·.global? Session.delayName) henv
    unfold Session.pace
    rw [hglobal, h.1]
    split
    · split
      · exact ⟨rfl, congrArg (_ :: ·) h.2⟩
      · exact h
    · exact h

/-- Corresponding cursors have the same token in front of them, even if it is part of a comment, and
comments are stepped over in the same way. -/
structure Alignment.Literal (A : Alignment) : Prop where
  front : ∀ {c d}, A.Aligned c d →
    Option.Rel (fun p q => p.kind = q.kind ∧ (A.places → p.span = q.span)) c.front d.front
  comments : ∀ {c d}, A.Aligned c d →
    A.Scans (fun _ _ => True) (Scan.comments c) (Scan.comments d)

/-- Nothing but equal cursors correspond to each other if nothing is tolerated. -/
theorem Alignment.exact_literal : Alignment.exact.Literal where
  front := by
    rintro c d rfl
    cases c.front with
    | none => exact .none
    | some token => exact .some ⟨rfl, fun _ => rfl⟩
  comments := by
    rintro c d rfl
    cases Scan.comments c with
    | ok _ c' => exact .ok trivial rfl
    | error f c' => exact .fault (.refl f)

section

variable {A : Alignment} (hA : A.Literal)

include hA

/-- Comments. -/
private theorem comment_agree {c d : Cursor} (hcd : A.Aligned c d) :
    Reading.Agree A A.Outcomes Reading.comment c Reading.comment d := by
  -- the comments are scanned, which both do in the same way
  have hscan : Reading.Agree A A.Outcomes (do Reading.scan Scan.comments; return Outcome.done) c
      (do Reading.scan Scan.comments; return Outcome.done) d :=
    .bind (.scan (hA.comments hcd)) fun _ _ _ _ _ hcd' => .pure .done hcd'
  have hkind : c.front.map Token.kind = d.front.map Token.kind := by
    have hfront := hA.front hcd
    generalize c.front = front, d.front = front' at hfront
    cases hfront with
    | none => rfl
    | some hpq => exact congrArg some hpq.1
  -- by the token in front there is a comment or not
  refine .getting ?_
  rw [hkind]
  split
  · exact hscan
  · exact hscan
  · exact .pure .declined hcd

namespace Alike

variable {e e' : Evaluator} (h : Alike A e e') (hT : A.firstStarves) {fuel fuel' : Nat}
  (hle : fuel ≤ fuel')

include h hT hle

/-- A statement, and those behind it. -/
private theorem statement (kind : Kind) {span span' : Span} (hspan : A.places → span = span')
    {c d : Cursor} (hcd : A.Aligned c d) :
    Reading.Agree A (Option.Rel A.Values)
      (do
        match ← Reading.locate span (Reading.firstOf e fuel Construct.chain) with
        | .declined => Reading.raiseAt span (.unknownToken kind.text)
        | .done => e (.statements true)
        | .returned value => return some value) c
      (do
        match ← Reading.locate span' (Reading.firstOf e' fuel' Construct.chain) with
        | .declined => Reading.raiseAt span' (.unknownToken kind.text)
        | .done => e' (.statements true)
        | .returned value => return some value) d := by
  -- handlers of constructs agree as for any alignment, only comments are compared here
  refine .bind (.locate (firstOf (fun construct _ {c d} hcd => ?_) hcd) hspan)
    fun a b c₁ d₁ hab hcd₁ => ?_
  · by_cases hne : construct = .comment
    · subst hne
      exact comment_agree hA hcd
    · exact h.attempt hT hle hne hcd
  · cases hab with
    | declined => exact .raiseAt _ hspan
    | done => exact h.agree (.statements true) hcd₁
    | returned hvw => exact .pure (.some hvw) hcd₁

/-- Statements at corresponding cursors. -/
private theorem statements (paced : Bool) {c d : Cursor} (hcd : A.Aligned c d) :
    Reading.Agree A (Option.Rel A.Values) (Reading.statements e fuel paced) c
      (Reading.statements e' fuel' paced) d := by
  refine .getting ?_
  -- the token in front is the same in both, place and all
  have hfront := hA.front hcd
  generalize c.front = front, d.front = front' at hfront
  cases hfront with
  | none => exact .pure .none hcd
  | @some p q hpq =>
    obtain ⟨kind, span⟩ := p
    obtain ⟨_, span'⟩ := q
    obtain ⟨rfl, hspan⟩ : kind = _ ∧ (A.places → span = span') := hpq
    simp only
    split
    · exact .raiseAt _ hspan
    · exact .map (h.returned hspan hcd) fun _ _ hvw => .some hvw
    · cases paced with
      | true =>
        exact .bind (.lift A.pausing hcd) fun _ _ _ _ _ hcd' =>
          h.statement hA hT hle kind hspan hcd'
      | false => exact h.statement hA hT hle kind hspan hcd

end Alike

end

namespace Phrase

/-- With more fuel all phrases do the same at corresponding cursors. -/
theorem alike_of_literal {A : Alignment} (hA : A.Literal) (hT : A.firstStarves)
    {fuel fuel' : Nat} (hle : fuel ≤ fuel') : Alike A (run fuel) (run fuel') := by
  refine ⟨fun {α} phrase {c d} hcd => ?_, sound fuel, sound fuel'⟩
  induction fuel generalizing fuel' α c d with
  | zero => exact Eval.Agree.starved hT
  | succ fuel ih =>
    obtain ⟨fuel', rfl⟩ : ∃ n, fuel' = n + 1 := ⟨fuel' - 1, by omega⟩
    have hle := Nat.le_of_succ_le_succ hle
    have h : Alike A (run fuel) (run fuel') := ⟨ih hle, sound fuel, sound fuel'⟩
    rw [run_succ, run_succ, ← ruleBy_statements, ← ruleBy_statements]
    exact h.ruleBy hcd (fun paced => h.statements hA hT hle paced hcd) phrase

/-- With more fuel all phrases do the same. -/
theorem alike_of_le {fuel fuel' : Nat} (hle : fuel ≤ fuel') :
    Alike .exact (run fuel) (run fuel') :=
  alike_of_literal Alignment.exact_literal trivial hle

/-- More fuel keeps a finished answer. -/
theorem run_of_le {fuel fuel' : Nat} (hle : fuel ≤ fuel') (phrase : Phrase α) (c : Cursor)
    (s : Session) (h : ∀ s', run fuel phrase c s ≠ .error .outOfFuel s') :
    run fuel' phrase c s = run fuel phrase c s := by
  have hends := (alike_of_le hle).agree phrase (rfl : c = c) s s (Tolerance.exact_sessions.mpr rfl)
  refine hends.eq_of_exact (fun p q hpq => ?_) h
  exact Prod.ext (Tolerance.exact_same hpq.1) hpq.2

end Phrase

/-- Whether a run has come to an end, with a result or a fault. -/
def Finished (run : Except Halt α × Session) : Prop := run.1 ≠ .error .outOfFuel

instance [DecidableEq α] (run : Except Halt α × Session) : Decidable (Finished run) :=
  inferInstanceAs (Decidable (_ ≠ _))

/-- More fuel keeps the end of a program. -/
theorem Session.runTokens_of_le {fuel fuel' : Nat} (hle : fuel ≤ fuel') {s : Session}
    {tokens : List Token} (h : Finished (s.runTokens fuel tokens)) :
    s.runTokens fuel' tokens = s.runTokens fuel tokens := by
  have hrun := Phrase.run_of_le hle (.statements false) (Cursor.start tokens)
    { s with env := s.env.reset, callDepth := 0 } fun s' hstarved => h ?_
  · unfold runTokens evaluate Reading.onTokens
    simp only [Bind.bind, EStateM.bind]
    rw [hrun]
  · unfold runTokens evaluate Reading.onTokens
    simp only [Bind.bind, EStateM.bind]
    rw [hstarved]

/-- Two ends of a program are the same, whatever the fuel. -/
theorem Session.runTokens_unique {fuel fuel' : Nat} {s : Session} {tokens : List Token}
    (h : Finished (s.runTokens fuel tokens)) (h' : Finished (s.runTokens fuel' tokens)) :
    s.runTokens fuel tokens = s.runTokens fuel' tokens := by
  rcases Nat.le_total fuel fuel' with hle | hle
  · exact (runTokens_of_le hle h).symm
  · exact runTokens_of_le hle h'

end Tern
