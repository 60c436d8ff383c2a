import Tern.Proofs.Comments

/-!
# Programs that stand somewhere else

What a program does depends on the kinds of its tokens only. Where they stand in the text, and which
tokens are behind the cursor already, is noticed in the places of faults and nowhere else: a program
may be moved within a text, and does the same there. Pauses are left out of the comparison as well,
so it makes no difference whether there is one before the first statement.

## Key results

- `Alignment.placeless`: the comparison of programs whose tokens are of the same kinds
- `Phrase.statements_placeless`: such programs end in the same way
- `SameEffect.of_ends`: so their results are the same
-/

namespace Tern

open Cursor (Reads)

/-! ### Tokens without their places -/

namespace Token

/-- The tokens without their places. Comments are kept. -/
def placeless (tokens : List Token) : List Token := tokens.map (·.kind.bare)

@[simp] theorem placeless_nil : placeless [] = [] := rfl

@[simp] theorem placeless_cons (token : Token) (tokens : List Token) :
    placeless (token :: tokens) = token.kind.bare :: placeless tokens := rfl

@[simp] theorem placeless_append (tokens more : List Token) :
    placeless (tokens ++ more) = placeless tokens ++ placeless more := List.map_append

/-- Places have nothing to do with what is a comment. -/
theorem bareFrom_placeless (inside : Bool) (tokens : List Token) :
    bareFrom inside (placeless tokens) = bareFrom inside tokens := by
  -- whether a token is kept depends on its kind
  induction tokens generalizing inside with
  | nil => rfl
  | cons token tokens ih =>
    cases inside with
    | true => exact ih _
    | false =>
      simp only [placeless_cons, bareFrom, Kind.bare]
      split
      · exact ih _
      · exact ih _
      · rw [ih]

/-- Tokens of the same kinds have the same bare form. -/
theorem bare_of_placeless {xs ys : List Token} (h : placeless xs = placeless ys) :
    bare xs = bare ys := by
  unfold bare
  rw [← bareFrom_placeless, h, bareFrom_placeless]

end Token

namespace Cursor

/-- Where comments end does not depend on places. -/
private theorem settleFrom_placeless (inside : Bool) (seen seen' rest : List Token) :
    Token.placeless (settleFrom inside seen rest).rest =
      (settleFrom inside seen' (Token.placeless rest)).rest := by
  -- where comments end depends on kinds, and what was seen is only carried along
  induction rest generalizing inside seen seen' with
  | nil => cases inside <;> rfl
  | cons token rest ih =>
    cases inside with
    | true => exact ih ..
    | false =>
      simp only [settleFrom, Token.placeless_cons, Kind.bare]
      split
      · exact ih ..
      · exact ih ..
      · rfl

variable {c d : Cursor} (h : Token.placeless c.rest = Token.placeless d.rest)

include h

/-- Behind the comments that are ahead the same tokens follow. -/
private theorem settle_placeless :
    Token.placeless c.settle.rest = Token.placeless d.settle.rest := by
  unfold settle
  rw [settleFrom_placeless false c.seen [], settleFrom_placeless false d.seen [], h]

/-- The same token is next. -/
private theorem next?_placeless :
    (c.next? = none ∧ d.next? = none) ∨
      ∃ p q c' d', c.next? = some (p, c') ∧ d.next? = some (q, d') ∧ p.kind = q.kind ∧
        Token.placeless c'.rest = Token.placeless d'.rest := by
  have hsettle := settle_placeless h
  -- behind the comments there is a token in both or in neither
  unfold next?
  generalize c.settle = c, d.settle = d at hsettle
  obtain ⟨seen, rest⟩ := c
  obtain ⟨seen', rest'⟩ := d
  cases rest with
  | nil =>
    cases rest' with
    | nil => exact .inl ⟨rfl, rfl⟩
    | cons q rest' => cases hsettle
  | cons p rest =>
    cases rest' with
    | nil => cases hsettle
    | cons q rest' =>
      obtain ⟨hhead, hrest⟩ := List.cons.inj hsettle
      exact .inr ⟨p, q, _, _, rfl, rfl, (Token.mk.inj hhead).1, hrest⟩

/-- The same comments end. -/
private theorem unclosed?_placeless : c.unclosed?.isSome = d.unclosed?.isSome := by
  rw [Bool.eq_iff_iff, unclosed?_isSome_iff, unclosed?_isSome_iff, Token.bare_of_placeless h]

omit h in
/-- The tokens between two cursors stand in front of those that are ahead of the second one. -/
private theorem placeless_passed {c' d' : Cursor} {ks ls : List Kind}
    (h : Token.placeless c.rest = Token.placeless d.rest)
    (h' : Token.placeless c'.rest = Token.placeless d'.rest) (hc : Reads c ks c')
    (hd : Reads d ls d') :
    Token.placeless (c'.passedSince c.position) = Token.placeless (d'.passedSince d.position) := by
  rw [hc.rest_eq, hd.rest_eq, Token.placeless_append, Token.placeless_append, h'] at h
  exact List.append_cancel_right h

end Cursor

/-! ### The comparison -/

/-- The tolerance under which places and pauses do not matter. -/
def Tolerance.placeless : Tolerance where
  view := Token.placeless
  places := False
  outside σ es τ fs := σ = τ ∧ Event.texts es = Event.texts fs
  firstStarves := True
  secondStarves := False

theorem Tolerance.unpaced_placeless : placeless.Unpaced := fun _ _ _ _ => Iff.rfl

/-- The comparison of programs whose tokens are of the same kinds, where the first may run out of
fuel. -/
def Alignment.placeless : Alignment where
  toTolerance := .placeless
  Aligned c d := Token.placeless c.rest = Token.placeless d.rest
  next h := by
    -- the next tokens are of one kind; their places are not compared
    obtain hnone | ⟨p, q, c', d', hc, hd, hkind, hrest⟩ := Cursor.next?_placeless h
    · exact .inl hnone
    · exact .inr ⟨p, q, c', d', hc, hd, hkind, False.elim, hrest⟩
  here _ := False.elim
  behind _ := False.elim
  start h := h
  -- what was passed is the same but for places, and its last token is dropped on both sides
  passed h h' hc hd := by
    have hpassed := Cursor.placeless_passed h h' hc hd
    show Token.placeless _ = Token.placeless _
    unfold Token.placeless at hpassed ⊢
    rw [List.map_dropLast, List.map_dropLast, hpassed]
  -- what is quoted is rendered from kinds
  quoted h h' hc hd :=
    Token.normalize_of_bare (Token.bare_of_placeless (Cursor.placeless_passed h h' hc hd))
  maxCallDepth h := h.1 ▸ rfl
  print := Tolerance.unpaced_placeless.print
  pace _ := Tolerance.unpaced_placeless.pace

/-- Comments are tokens like others here. -/
theorem Alignment.placeless_literal : Alignment.placeless.Literal where
  front {c d} h := by
    unfold Cursor.front
    have h : Token.placeless c.rest = Token.placeless d.rest := h
    generalize c.rest = rest, d.rest = rest' at h
    cases rest with
    | nil =>
      cases rest' with
      | nil => exact .none
      | cons q rest' => cases h
    | cons p rest =>
      cases rest' with
      | nil => cases h
      | cons q rest' =>
        have hkind : p.kind = q.kind := (Token.mk.inj (List.cons.inj h).1).1
        exact .some ⟨hkind, False.elim⟩
  comments {c d} h := by
    have hopen := Cursor.unclosed?_placeless h
    -- comments are open in both sequences or in neither
    cases hc : c.unclosed? with
    | none =>
      cases hd : d.unclosed? with
      | none =>
        rw [Scan.comments_of_closed hc, Scan.comments_of_closed hd]
        exact .ok trivial (Cursor.settle_placeless h)
      | some mark =>
        rw [hc, hd] at hopen
        cases hopen
    | some mark =>
      cases hd : d.unclosed? with
      | none =>
        rw [hc, hd] at hopen
        cases hopen
      | some mark' =>
        rw [Scan.comments_of_unclosed hc, Scan.comments_of_unclosed hd]
        exact .fault (.of_cause False.elim)

/-- With more fuel all phrases do the same on tokens of the same kinds. -/
theorem Phrase.alike_of_placeless {fuel fuel' : Nat} (hle : fuel ≤ fuel') :
    Alike .placeless (run fuel) (run fuel') :=
  alike_of_literal Alignment.placeless_literal trivial hle

/-! ### Pauses -/

/-- A pause before the first statement is a pause before them all. -/
private theorem Phrase.statements_paused (fuel : Nat) (paced : Bool) (c : Cursor) (s : Session) :
    ∃ s', (s' = s ∨ s' = s.pace) ∧
      run fuel (.statements paced) c s = run fuel (.statements false) c s' := by
  cases fuel with
  | zero => exact ⟨s, .inl rfl, rfl⟩
  | succ fuel =>
    simp only [run_succ, rule]
    -- the end, a brace or a `return` take no pause
    cases hfront : c.front with
    | none =>
      refine ⟨s, .inl rfl, ?_⟩
      rw [Reading.statements_of_none hfront, Reading.statements_of_none hfront]
    | some token =>
      by_cases hbrace : token.kind = .symbol .rightBrace
      · refine ⟨s, .inl rfl, ?_⟩
        rw [Reading.statements_of_brace hfront hbrace, Reading.statements_of_brace hfront hbrace]
      by_cases hreturn : token.kind = .keyword .returnKw
      · refine ⟨s, .inl rfl, ?_⟩
        rw [Reading.statements_of_return hfront hreturn,
          Reading.statements_of_return hfront hreturn]
      -- only what is tried as a construct has a pause in front of it
      refine ⟨Reading.paused paced s, ?_, ?_⟩
      · cases paced with
        | true => exact .inr rfl
        | false => exact .inl rfl
      · rw [Reading.statements_of_front hfront hbrace hreturn,
          Reading.statements_of_front hfront hbrace hreturn]
        rfl

/-- The two sides may be exchanged. -/
theorem Tolerance.Sessions.symm_of_placeless {s t : Session} (h : placeless.Sessions s t) :
    placeless.Sessions t s :=
  h.symm unpaced_placeless

/-- Statements whose tokens are of the same kinds end in the same way, if the second have as much
fuel as the first or more. -/
theorem Phrase.statements_placeless {fuel fuel' : Nat} (hle : fuel ≤ fuel') (paced paced' : Bool)
    {c d : Cursor} (hcd : Token.placeless c.rest = Token.placeless d.rest) {s t : Session}
    (hst : Tolerance.placeless.Sessions s t) :
    Tolerance.placeless.Ends (fun p q => Option.Rel Tolerance.placeless.Values p.1 q.1)
      (run fuel (.statements paced) c s) (run fuel' (.statements paced') d t) := by
  -- whatever pauses there are stand in front
  obtain ⟨s', hs', hs⟩ := statements_paused fuel paced c s
  obtain ⟨t', ht', ht⟩ := statements_paused fuel' paced' d t
  have hT := Tolerance.unpaced_placeless
  -- a pause on either side leaves the sessions the same
  have hst : Tolerance.placeless.Sessions s' t := by
    rcases hs' with rfl | rfl
    · exact hst
    · exact hst.pace_first hT
  have hst : Tolerance.placeless.Sessions s' t' := by
    rcases ht' with rfl | rfl
    · exact hst
    · exact hst.pace_second hT
  rw [hs, ht]
  exact ((alike_of_placeless hle).agree (.statements false) hcd s' t' hst).mono fun _ _ h => h.1

/-! ### Results -/

/-- A routine of the host that cannot tell apart functions whose bodies differ in places only. -/
def Routine.Placeless (routine : Routine) : Prop :=
  ∀ vs ws, vs.map (·.viewed Token.placeless) = ws.map (·.viewed Token.placeless) →
    match routine vs, routine ws with
    | .ok v, .ok w => v.viewed Token.placeless = w.viewed Token.placeless
    | .error f, .error g => f.cause = g.cause ∧ f.unwound = g.unwound
    | _, _ => False

/-- Such a routine respects the tolerance for places. -/
theorem Routine.Placeless.respects {routine : Routine} (h : routine.Placeless) :
    Tolerance.placeless.Respects routine :=
  (Tolerance.respects_iff id).mpr h

/-- A routine that looks at nothing but the number of its arguments is like that. -/
theorem Routine.Placeless.of_length (answer : Nat → Except Fault Value) :
    Routine.Placeless fun arguments => answer arguments.length :=
  (Tolerance.respects_iff (T := .placeless) id).mp (Tolerance.respects_of_length answer)

/-- A session whose routines are all like that counts as itself. -/
theorem Tolerance.Sessions.refl_of_placeless {s : Session}
    (h : ∀ routine ∈ s.routines, routine.Placeless) : placeless.Sessions s s :=
  ⟨rfl, ⟨rfl, rfl⟩, rfl, rfl, rfl, fun routine hroutine => (h routine hroutine).respects⟩

/-- Results of two runs that are the same apart from places and pauses: the same value, or a fault
of the same cause with the same backtrace; the same variables, the same number of functions made,
and the same output. -/
structure SameEffect (p q : Except Halt Value × Session) : Prop where
  outcome : match p.1, q.1 with
    | .ok v, .ok w => v.viewed Token.placeless = w.viewed Token.placeless
    | .error (.fault f), .error (.fault g) => f.cause = g.cause ∧ f.backtrace = g.backtrace
    | _, _ => False
  env : p.2.env.viewed Token.placeless = q.2.env.viewed Token.placeless
  nextId : p.2.nextId = q.2.nextId
  output : Event.output p.2.transcript.reverse = Event.output q.2.transcript.reverse

/-- The same effect is that of runs that have come to an end. -/
theorem SameEffect.finished {p q : Except Halt Value × Session} (h : SameEffect p q) :
    Finished q := by
  have houtcome := h.outcome
  intro hq
  rw [hq] at houtcome
  split at houtcome
  · cases ‹Except.error _ = Except.ok _›
  · cases ‹Except.error Halt.outOfFuel = Except.error (Halt.fault _)›
  · exact houtcome

/-- The same effect leaves the same number in a global. -/
theorem SameEffect.number? {p q : Except Halt Value × Session} (h : SameEffect p q)
    (name : String) :
    (p.2.global? name).bind (·.value.number?) = (q.2.global? name).bind (·.value.number?) :=
  Environment.number?_of_viewed _ h.env name

namespace Session

/-- What a run makes of the end of its statements. -/
def conclude : EStateM.Result Halt Session (Option Value × Cursor) → Except Halt Value × Session
  | .ok (returned, _) s => (.ok (returned.getD .void), s)
  | .error halt s => (.error halt, s)

/-- A run is the execution of statements. -/
theorem runTokens_eq_conclude (s : Session) (fuel : Nat) (tokens : List Token) :
    s.runTokens fuel tokens =
      conclude (Phrase.run fuel (.statements false) (.start tokens) s.fresh) := by
  show s.fresh.evaluate _ = _
  unfold evaluate Reading.onTokens
  simp only [Bind.bind, EStateM.bind]
  cases Phrase.run fuel (.statements false) (.start tokens) s.fresh with
  | ok p t => rfl
  | error halt t => rfl

end Session

/-- Statements that end in the same way have the same effect. -/
theorem SameEffect.of_ends {x y : EStateM.Result Halt Session (Option Value × Cursor)}
    (h : Tolerance.placeless.Ends (fun p q => Option.Rel Tolerance.placeless.Values p.1 q.1) x y)
    (hx : Finished (Session.conclude x)) :
    SameEffect (Session.conclude x) (Session.conclude y) := by
  have houtput : ∀ {s t : Session}, Tolerance.placeless.Sessions s t →
      Event.output s.transcript.reverse = Event.output t.transcript.reverse := by
    intro s t hst
    rw [Event.output_reverse, Event.output_reverse, hst.outside.2]
  -- only ends for want of fuel differ in kind, and the first evaluation has fuel enough
  cases h with
  | @ok p q s t hpq hst =>
    refine ⟨?_, hst.env, hst.nextId, houtput hst⟩
    obtain ⟨returned, c⟩ := p
    obtain ⟨returned', d⟩ := q
    cases hpq with
    | some hvw => exact hvw
    | none => rfl
  | fault hfg hst =>
    exact ⟨⟨hfg.cause, congrArg List.reverse hfg.unwound⟩, hst.env, hst.nextId, houtput hst⟩
  | first _ => exact absurd rfl hx
  | second hT => exact hT.elim

end Tern
