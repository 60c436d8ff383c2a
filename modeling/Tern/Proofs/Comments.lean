import Tern.Proofs.Fuel

/-!
# Programs that differ in comments and places only

Comments may stand between any two tokens. In front of a statement they are a construct of their
own, with a pause and a unit of fuel; everywhere else the cursor steps over them. Programs with the
same bare form do the same nevertheless, apart from pauses, from the places of faults, and from the
comments that are kept in the bodies of functions.

## Key results

- `Reading.statements_of_comment`: a comment in front of a statement costs a pause and a step
- `Alike.plain_statements`: statements without a comment in front
- `Phrase.alike_of_bare`: twice the fuel makes up for all comments
- `Session.runTokens_of_bare`: programs with the same tokens outside comments do the same
-/

namespace Tern

open Cursor (Reads)

/-- The texts printed in a sequence of events. -/
def Event.texts (events : List Event) : List String :=
  events.filterMap fun
    | printed text => some text
    | paused _ => none

/-- The output is made of the texts that were printed. -/
theorem Event.output_reverse (events : List Event) :
    output events.reverse = String.join (texts events).reverse :=
  congrArg String.join List.filterMap_reverse

/-- The tolerance under which comments, places and pauses do not matter. -/
def Tolerance.bare (firstStarves secondStarves : Prop) : Tolerance where
  view := Token.bare
  places := False
  outside σ es τ fs := σ = τ ∧ Event.texts es = Event.texts fs
  firstStarves := firstStarves
  secondStarves := secondStarves

/-- The session after the pause in front of a statement. -/
def Reading.paused (paced : Bool) (s : Session) : Session := if paced then s.pace else s

/-- A pause prints nothing. -/
theorem Session.outside_pace (s : Session) :
    s.pace.settings = s.settings ∧ Event.texts s.pace.transcript = Event.texts s.transcript := by
  unfold pace
  split
  · split <;> exact ⟨rfl, rfl⟩
  · exact ⟨rfl, rfl⟩

namespace Tolerance

/-- Of what has happened outside, the settings and the texts that were printed are compared. -/
def Unpaced (T : Tolerance) : Prop :=
  ∀ σ es τ fs, T.outside σ es τ fs ↔ σ = τ ∧ Event.texts es = Event.texts fs

theorem unpaced_bare (q r : Prop) : (bare q r).Unpaced := fun _ _ _ _ => Iff.rfl

section

variable {T : Tolerance} {s t : Session}

/-- Printing the same makes no difference. -/
theorem Unpaced.print (hT : T.Unpaced) (text : String)
    (h : T.outside s.settings s.transcript t.settings t.transcript) :
    T.outside (s.print text).settings (s.print text).transcript
      (t.print text).settings (t.print text).transcript := by
  rw [hT] at h ⊢
  unfold Session.print
  rw [h.1]
  split
  · exact h
  · exact ⟨rfl, congrArg (text :: ·) h.2⟩

/-- Pauses make no difference. -/
theorem Unpaced.pace (hT : T.Unpaced)
    (h : T.outside s.settings s.transcript t.settings t.transcript) :
    T.outside s.pace.settings s.pace.transcript t.pace.settings t.pace.transcript := by
  rw [hT] at h ⊢
  obtain ⟨hsettings, htexts⟩ := Session.outside_pace s
  obtain ⟨hsettings', htexts'⟩ := Session.outside_pace t
  exact ⟨hsettings.trans (h.1.trans hsettings'.symm), htexts.trans (h.2.trans htexts'.symm)⟩

/-- A pause on the first side only makes no difference either. -/
theorem Sessions.pace_first (h : T.Sessions s t) (hT : T.Unpaced) : T.Sessions s.pace t := by
  -- a pause changes the settings and the transcript only, and neither is compared in full
  obtain ⟨henv, hdepth, hid, hroutines⟩ := Session.pace_same s
  obtain ⟨hsettings, htexts⟩ := Session.outside_pace s
  have houtside := (hT ..).mp h.outside
  exact {
    env := henv ▸ h.env
    outside := (hT ..).mpr ⟨hsettings.trans houtside.1, htexts.trans houtside.2⟩
    callDepth := hdepth.trans h.callDepth
    nextId := hid.trans h.nextId
    routines := hroutines.trans h.routines
    respected := hroutines ▸ h.respected }

/-- The two sides may be exchanged. -/
theorem Sessions.symm (h : T.Sessions s t) (hT : T.Unpaced) : T.Sessions t s where
  env := h.env.symm
  outside := (hT ..).mpr (((hT ..).mp h.outside).imp Eq.symm Eq.symm)
  callDepth := h.callDepth.symm
  nextId := h.nextId.symm
  routines := h.routines.symm
  respected := h.routines ▸ h.respected

/-- A pause on the second side only makes no difference. -/
theorem Sessions.pace_second (h : T.Sessions s t) (hT : T.Unpaced) : T.Sessions s t.pace :=
  ((h.symm hT).pace_first hT).symm hT

end

variable {q r : Prop} {s t : Session}

/-- A pause in front of a statement makes no difference on either side. -/
theorem Sessions.paused (h : (bare q r).Sessions s t) (paced paced' : Bool) :
    (bare q r).Sessions (Reading.paused paced s) (Reading.paused paced' t) := by
  have hT := unpaced_bare q r
  -- each pause is taken or left out on its own
  cases paced with
  | true =>
    cases paced' with
    | true => exact (h.pace_first hT).pace_second hT
    | false => exact h.pace_first hT
  | false =>
    cases paced' with
    | true => exact h.pace_second hT
    | false => exact h

end Tolerance

/-- Stretches between cursors ahead of which the bare forms agree have the same bare form. -/
private theorem stretch_unique {c d c' d' : Cursor} {ks ls : List Kind}
    (h : Token.bare c.rest = Token.bare d.rest) (h' : Token.bare c'.rest = Token.bare d'.rest)
    (hc : Reads c ks c') (hd : Reads d ls d') : ks.map Kind.bare = ls.map Kind.bare := by
  rw [hc.bare_rest, hd.bare_rest, h'] at h
  exact List.append_cancel_right h

/-- The comparison of programs with the same bare form. -/
def Alignment.bareWith (firstStarves secondStarves : Prop) : Alignment where
  toTolerance := .bare firstStarves secondStarves
  Aligned c d := Token.bare c.rest = Token.bare d.rest
  next {c d} h := by
    rw [Cursor.bare_rest c, Cursor.bare_rest d] at h
    -- a token that is read begins no comment, so it is not the mark of one that does not end
    have hclash : ∀ {e e' : Cursor} {token : Token} {tail : List Token} {open? : Bool},
        e.next? = some (token, e') →
        token.kind.bare :: tail ≠ if open? then [Kind.bare (.symbol .commentOpen)] else [] := by
      intro e e' token tail open? hnext heq
      cases open? with
      | true =>
        have hkind := congrArg Token.kind (List.cons.inj heq).1
        have hplain := (Cursor.next?_split hnext).1
        rw [show token.kind = .symbol .commentOpen from hkind] at hplain
        cases hplain
      | false => cases heq
    -- tokens are left on both sides or on neither
    cases hc : c.next? with
    | none =>
      cases hd : d.next? with
      | none => exact .inl ⟨rfl, rfl⟩
      | some q =>
        rw [hc, hd] at h
        exact absurd h.symm (hclash hd)
    | some p =>
      cases hd : d.next? with
      | none =>
        rw [hc, hd] at h
        exact absurd h (hclash hc)
      | some q =>
        rw [hc, hd] at h
        obtain ⟨hhead, hrest⟩ := List.cons.inj h
        have hkind : p.1.kind = q.1.kind := (Token.mk.inj hhead).1
        exact .inr ⟨p.1, q.1, p.2, q.2, rfl, rfl, hkind, False.elim, hrest⟩
  here _ := False.elim
  behind _ := False.elim
  start h := h
  passed h h' hc hd := by
    -- the stretches have the same bare tokens, the last of which is the closing one
    have hsame := stretch_unique h h' hc hd
    rw [List.map_append, List.map_append] at hsame
    show Token.bare _ = Token.bare _
    rw [hc.passedSince_dropLast, hd.passedSince_dropLast]
    exact (List.append_inj' hsame rfl).1
  quoted {c d c' d' ks ls} h h' hc hd := by
    -- what is quoted is rendered from bare tokens
    refine Token.normalize_of_bare ?_
    rw [hc.passedSince, hd.passedSince, stretch_unique h h' hc hd]
  maxCallDepth h := h.1 ▸ rfl
  print := (Tolerance.unpaced_bare _ _).print
  pace _ := (Tolerance.unpaced_bare _ _).pace

/-- The comparison of programs with the same bare form, where the first may run out of fuel. -/
abbrev Alignment.bare : Alignment := .bareWith True False

/-! ### Comments in front of statements -/

namespace Reading

variable {c : Cursor}

/-- A comment is in front. -/
private theorem front_of_atComment (hat : c.atComment = true) :
    ∃ token, c.front = some token ∧
      ((∃ text, token.kind = .lineComment text) ∨ token.kind = .symbol .commentOpen) := by
  unfold Cursor.atComment at hat
  cases hfront : c.front with
  | none => simp [hfront] at hat
  | some token =>
    refine ⟨token, rfl, Kind.begins_of_isPlain_eq_false ?_⟩
    simpa [hfront] using hat

/-- Where no comment is in front, the construct declines. -/
theorem comment_of_not_atComment (hat : c.atComment = false) :
    comment c = pure (.declined, c) := by
  unfold comment
  rw [cursor_bind]
  cases hfront : c.front with
  | none => rfl
  | some token =>
    -- the token in front begins no comment, so no handler of comments takes it
    have hplain : token.kind.isPlain = true := by simpa [Cursor.atComment, hfront] using hat
    rw [Option.map_some]
    generalize token.kind = kind at hplain
    cases kind with
    | lineComment text => cases hplain
    | symbol mark =>
      cases mark with
      | commentOpen => cases hplain
      | _ => rfl
    | _ => rfl

/-- A comment in front is scanned. -/
private theorem comment_of_atComment (hat : c.atComment = true) :
    comment c = (do scan Scan.comments; return Outcome.done : Reading Outcome) c := by
  obtain ⟨token, hfront, hkind⟩ := front_of_atComment hat
  unfold comment
  rw [cursor_bind, hfront, Option.map_some]
  obtain ⟨text, hkind⟩ | hkind := hkind
  · rw [hkind]
  · rw [hkind]

/-- A comment that ends is stepped over. -/
theorem comment_of_closed (hat : c.atComment = true) (h : c.unclosed? = none) :
    comment c = pure (.done, c.settle) := by
  rw [comment_of_atComment hat, bind_of_pure (scan_of_ok (Scan.comments_of_closed h))]
  rfl

/-- A comment that does not end is a fault. -/
theorem comment_of_unclosed {mark : Token} (hat : c.atComment = true)
    (h : c.unclosed? = some mark) :
    comment c = throw (.fault (.malformed .unclosedComment mark.span)) := by
  rw [comment_of_atComment hat]
  show (scan Scan.comments c >>= _) = _
  rw [scan_of_error (Scan.comments_of_unclosed h)]
  rfl

section

variable {self : Evaluator} {fuel : Nat} {s : Session}

/-- A statement that is no `return` is offered to the constructs after a pause. -/
theorem statements_of_front {token : Token} (hfront : c.front = some token)
    (hbrace : token.kind ≠ .symbol .rightBrace) (hreturn : token.kind ≠ .keyword .returnKw)
    (paced : Bool) :
    statements self fuel paced c s = dispatched self fuel token c (paused paced s) := by
  unfold statements
  -- braces and `return` are read in other ways, all the rest is dispatched
  rw [cursor_bind, hfront]
  obtain ⟨kind, span⟩ := token
  cases kind with
  | symbol mark =>
    cases mark with
    | rightBrace => exact absurd rfl hbrace
    | _ => cases paced <;> rfl
  | keyword word =>
    cases word with
    | returnKw => exact absurd rfl hreturn
    | _ => cases paced <;> rfl
  | _ => cases paced <;> rfl

/-- At the end of the tokens there is no statement. -/
theorem statements_of_none (hfront : c.front = none) (paced : Bool) :
    statements self fuel paced c = pure (none, c) := by
  unfold statements
  rw [cursor_bind, hfront]
  rfl

/-- A brace that closes nothing is a fault. -/
theorem statements_of_brace {token : Token} (hfront : c.front = some token)
    (hkind : token.kind = .symbol .rightBrace) (paced : Bool) :
    statements self fuel paced c =
      (raiseAt token.span (.malformed .unmatchedBrace) : Reading (Option Value)) c := by
  unfold statements
  rw [cursor_bind, hfront]
  obtain ⟨kind, span⟩ := token
  obtain rfl : kind = _ := hkind
  rfl

/-- A `return`. -/
theorem statements_of_return {token : Token} (hfront : c.front = some token)
    (hkind : token.kind = .keyword .returnKw) (paced : Bool) :
    statements self fuel paced c =
      (some <$> returned self token.span : Reading (Option Value)) c := by
  unfold statements
  rw [cursor_bind, hfront]
  obtain ⟨kind, span⟩ := token
  obtain rfl : kind = _ := hkind
  rfl

/-- Where no comment is in front, a statement is offered to the other constructs. -/
theorem firstOf_of_not_atComment (hat : c.atComment = false) :
    firstOf self fuel Construct.chain c = firstOf self fuel Construct.chain.tail c := by
  show (comment >>= _) c = _
  rw [bind_of_pure (comment_of_not_atComment hat)]
  rfl

/-- A statement with a comment in front of it is offered to the constructs. -/
private theorem statements_of_atComment (hat : c.atComment = true) (paced : Bool) :
    ∃ token, statements self fuel paced c s = dispatched self fuel token c (paused paced s) := by
  obtain ⟨token, hfront, hkind⟩ := front_of_atComment hat
  refine ⟨token, statements_of_front hfront ?_ ?_ paced⟩
  · rintro h
    simp [h] at hkind
  · rintro h
    simp [h] at hkind

/-- A comment in front of a statement costs a pause and a step. -/
theorem statements_of_comment (hat : c.atComment = true) (h : c.unclosed? = none)
    (paced : Bool) :
    statements self fuel paced c s = self (.statements true) c.settle (paused paced s) := by
  obtain ⟨token, hstatements⟩ := statements_of_atComment (s := s) hat paced
  -- the handler of comments comes first, and takes all of them at once
  have hfirst : firstOf self fuel Construct.chain c = pure (.done, c.settle) := by
    show (comment >>= _) c = _
    rw [bind_of_pure (comment_of_closed hat h)]
    rfl
  have hlocated : locate token.span (firstOf self fuel Construct.chain) c =
      pure (.done, c.settle) := by
    show Eval.locate token.span (firstOf self fuel Construct.chain c) = _
    rw [hfirst]
    rfl
  rw [hstatements, dispatched, bind_of_pure hlocated]

/-- A comment that does not end is a fault in front of a statement. -/
theorem statements_of_unclosed {mark : Token} (hat : c.atComment = true)
    (h : c.unclosed? = some mark) (paced : Bool) :
    statements self fuel paced c s =
      .error (.fault (.malformed .unclosedComment mark.span)) (paused paced s) := by
  obtain ⟨token, hstatements⟩ := statements_of_atComment (s := s) hat paced
  -- it complains of the first mark that stays open
  have hfirst : firstOf self fuel Construct.chain c =
      throw (.fault (.malformed .unclosedComment mark.span)) := by
    show (comment c >>= _) = _
    rw [comment_of_unclosed hat h]
    rfl
  -- the complaint has a place already, so the dispatch does not add its own
  rw [hstatements]
  show (Eval.locate token.span (firstOf self fuel Construct.chain c) >>= _) _ = _
  rw [hfirst]
  rfl

end

end Reading

/-! ### Statements without a comment in front -/

namespace Alike

variable {A : Alignment} {e e' : Evaluator} (h : Alike A e e') (hT : A.firstStarves)
  {fuel fuel' : Nat} (hle : fuel ≤ fuel') {c d : Cursor} (hcd : A.Aligned c d)
  (hc : c.atComment = false) (hd : d.atComment = false)

include h hT hle hcd hc hd

/-- A statement without a comment in front of it, and those behind it. -/
private theorem dispatched {p q : Token} (hkind : p.kind = q.kind)
    (hspan : A.places → p.span = q.span) :
    Reading.Agree A (Option.Rel A.Values) (Reading.dispatched e fuel p) c
      (Reading.dispatched e' fuel' q) d := by
  have hfirst : Reading.Agree A A.Outcomes
      (Reading.firstOf e fuel Construct.chain) c (Reading.firstOf e' fuel' Construct.chain) d := by
    -- no comment is in front on either side, so the handlers behind the one for comments decide
    unfold Reading.Agree
    rw [Reading.firstOf_of_not_atComment hc, Reading.firstOf_of_not_atComment hd]
    refine Alike.firstOf (fun construct hmem {c d} hcd => ?_) hcd
    have hne : ∀ construct ∈ Construct.chain.tail, construct ≠ .comment := by decide
    exact h.attempt hT hle (hne construct hmem) hcd
  refine .bind (.locate hfirst hspan) fun a b c' d' hab hcd' => ?_
  cases hab with
  -- no handler took the token, and both complain of the same kind
  | declined =>
    rw [hkind]
    exact .raiseAt _ hspan
  -- the handler is done, and the rest of the list follows
  | done => exact h.agree (.statements true) hcd'
  | returned hvw => exact .pure (.some hvw) hcd'

/-- Statements without a comment in front of the first one, with pauses before them that make no
difference. -/
theorem plain_statements {paced paced' : Bool} {s t : Session} (hst : A.Sessions s t)
    (hpaused : A.Sessions (Reading.paused paced s) (Reading.paused paced' t)) :
    A.Ends (fun p q => Option.Rel A.Values p.1 q.1 ∧ A.Aligned p.2 q.2)
      (Reading.statements e fuel paced c s) (Reading.statements e' fuel' paced' d t) := by
  have hfront := Cursor.front_of_atComment_false hc
  have hfront' := Cursor.front_of_atComment_false hd
  obtain ⟨hnext, hnext'⟩ | ⟨p, q, c', d', hnext, hnext', hkind, hspan, -⟩ := A.next hcd
  -- the list ends on both sides
  · rw [hnext] at hfront
    rw [hnext'] at hfront'
    rw [Reading.statements_of_none hfront, Reading.statements_of_none hfront']
    exact .ok ⟨.none, hcd⟩ hst
  · rw [hnext] at hfront
    rw [hnext'] at hfront'
    -- the same kind of token is next, so both take the same branch
    by_cases hbrace : p.kind = .symbol .rightBrace
    · rw [Reading.statements_of_brace hfront hbrace,
        Reading.statements_of_brace hfront' (hkind ▸ hbrace)]
      exact Reading.Agree.raiseAt _ hspan s t hst
    by_cases hreturn : p.kind = .keyword .returnKw
    · rw [Reading.statements_of_return hfront hreturn,
        Reading.statements_of_return hfront' (hkind ▸ hreturn)]
      exact Reading.Agree.map (h.returned hspan hcd) (fun _ _ hvw => .some hvw) s t hst
    · rw [Reading.statements_of_front hfront hbrace hreturn,
        Reading.statements_of_front hfront' (hkind ▸ hbrace) (hkind ▸ hreturn)]
      exact h.dispatched hT hle hcd hc hd hkind hspan _ _ hpaused

end Alike

/-! ### Simulation -/

/-- Two evaluators that do the same on tokens with the same bare form, where it makes no difference
whether there is a pause before the first statement. -/
private structure Interchangeable (e e' : Evaluator) : Prop extends Alike .bare e e' where
  unpaced : ∀ (paced paced' : Bool) {c d}, Alignment.bare.Aligned c d →
    Reading.Agree .bare (Option.Rel Alignment.bare.Values) (e (.statements paced)) c
      (e' (.statements paced')) d

namespace Phrase

/-- Statements whose tokens have the same bare form, given that all phrases do the same with less
fuel. A comment in front of the first takes a step on its own side only: on the first side there
is less fuel then, and on the second there was enough for twice as many steps. -/
private theorem statements_agree {n : Nat}
    (ih : ∀ {m}, 2 * n ≤ m → Interchangeable (run n) (run m)) {m : Nat} (hle : 2 * (n + 1) ≤ m)
    (paced paced' : Bool) {c d : Cursor} (hcd : Alignment.bare.Aligned c d) :
    Reading.Agree .bare (Option.Rel Alignment.bare.Values) (run (n + 1) (.statements paced)) c
      (run m (.statements paced')) d := by
  obtain ⟨m, rfl⟩ : ∃ k, m = k + 2 := ⟨m - 2, by omega⟩
  intro s t hst
  rw [run_succ, rule]
  cases hc : c.atComment with
  | true =>
    cases hopen : c.unclosed? with
    | none =>
      -- this step is the first side's alone, which leaves the second with all of its fuel
      rw [Reading.statements_of_comment hc hopen]
      exact (ih (by omega)).unpaced true paced' ((Cursor.bare_rest_settle hopen).trans hcd) _ _
        (hst.paused paced false)
    | some mark =>
      obtain ⟨mark', hopen'⟩ := Cursor.exists_unclosed hopen hcd
      rw [Reading.statements_of_unclosed hc hopen, run_succ, rule,
        Reading.statements_of_unclosed (Cursor.atComment_of_unclosed hopen') hopen']
      exact .fault (.of_cause False.elim) (hst.paused paced paced')
  | false =>
    cases hd : d.atComment with
    | true =>
      cases hopen : d.unclosed? with
      | none =>
        -- the second side steps over the comment, and has fuel for the statement behind it
        rw [run_succ (m + 1), rule, Reading.statements_of_comment hd hopen, run_succ, rule]
        have hst' : Alignment.bare.Sessions s (Reading.paused paced' t) := hst.paused false paced'
        exact (ih (by omega)).plain_statements trivial (by omega)
          (hcd.trans (Cursor.bare_rest_settle hopen).symm) hc d.atComment_settle hst'
          (hst'.paused paced true)
      | some mark =>
        -- then the first cursor would stand in front of such a comment too
        obtain ⟨mark', hopen'⟩ := Cursor.exists_unclosed hopen hcd.symm
        rw [Cursor.atComment_of_unclosed hopen'] at hc
        cases hc
    | false =>
      rw [run_succ (m + 1), rule]
      exact (ih (by omega)).plain_statements trivial (by omega) hcd hc hd hst
        (hst.paused paced paced')

/-- Twice the fuel makes up for all comments. -/
private theorem interchangeable {n m : Nat} (hle : 2 * n ≤ m) :
    Interchangeable (run n) (run m) := by
  -- with twice the fuel the second evaluation can pass a comment in front of every statement
  induction n generalizing m with
  | zero =>
    -- without fuel the first evaluation says nothing
    exact ⟨⟨fun {α} phrase {c d} _ => Eval.Agree.starved trivial, sound 0, sound m⟩,
      fun _ _ _ _ _ => Eval.Agree.starved trivial⟩
  | succ n ih =>
    have hstatements := statements_agree ih hle
    refine ⟨⟨fun {α} phrase {c d} hcd => ?_, sound (n + 1), sound m⟩, hstatements⟩
    obtain ⟨m, rfl⟩ : ∃ k, m = k + 1 := ⟨m - 1, by omega⟩
    rw [run_succ, run_succ, ← ruleBy_statements, ← ruleBy_statements]
    exact (ih (by omega)).ruleBy hcd (fun paced => hstatements paced paced hcd) phrase

/-- Phrases whose tokens have the same bare form do the same, if the second has twice the fuel. -/
theorem alike_of_bare {n m : Nat} (hle : 2 * n ≤ m) : Alike .bare (run n) (run m) :=
  (interchangeable hle).toAlike

end Phrase

/-! ### Programs -/

/-- A routine of the host that cannot tell apart functions whose bodies differ in places and
comments only. -/
def Routine.Unaware (routine : Routine) : Prop :=
  ∀ vs ws, vs.map (·.viewed Token.bare) = ws.map (·.viewed Token.bare) →
    match routine vs, routine ws with
    | .ok v, .ok w => v.viewed Token.bare = w.viewed Token.bare
    | .error f, .error g => f.cause = g.cause ∧ f.unwound = g.unwound
    | _, _ => False

namespace Routine.Unaware

variable {routine : Routine} {q r : Prop}

/-- Such a routine respects the tolerance for comments. -/
theorem respects (h : routine.Unaware) (q r : Prop) : (Tolerance.bare q r).Respects routine :=
  (Tolerance.respects_iff id).mpr h

/-- A routine that respects the tolerance for comments is like that. -/
theorem of_respects (h : (Tolerance.bare q r).Respects routine) : routine.Unaware :=
  (Tolerance.respects_iff id).mp h

/-- A routine that looks at nothing but the number of its arguments is like that. -/
theorem of_length (answer : Nat → Except Fault Value) :
    Routine.Unaware fun arguments => answer arguments.length :=
  of_respects (q := True) (r := True) (Tolerance.respects_of_length answer)

end Routine.Unaware

/-- A session whose routines are all like that counts as itself. -/
theorem Tolerance.Sessions.refl_of_unaware {q r : Prop} {s : Session}
    (h : ∀ routine ∈ s.routines, routine.Unaware) : (Tolerance.bare q r).Sessions s s :=
  ⟨rfl, ⟨rfl, rfl⟩, rfl, rfl, rfl, fun routine hroutine => (h routine hroutine).respects q r⟩

/-- Results of two runs that are the same apart from pauses, places, and the comments in the bodies
of functions. -/
structure SameResult (p q : Except Halt Value × Session) : Prop where
  outcome : match p.1, q.1 with
    | .ok v, .ok w => v.viewed Token.bare = w.viewed Token.bare
    | .error (.fault f), .error (.fault g) => f.cause = g.cause ∧ f.backtrace = g.backtrace
    | _, _ => False
  output : Event.output p.2.transcript.reverse = Event.output q.2.transcript.reverse
  env : p.2.env.viewed Token.bare = q.2.env.viewed Token.bare
  nextId : p.2.nextId = q.2.nextId

namespace SameResult

/-- The same result is a result. -/
theorem finished {p q : Except Halt Value × Session} (h : SameResult p q) :
    Finished p ∧ Finished q := by
  -- a result that ran out of fuel would be equal to none
  have houtcome := h.outcome
  constructor
  · intro hp
    rw [hp] at houtcome
    exact houtcome
  · intro hq
    rw [hq] at houtcome
    split at houtcome
    · cases ‹Except.error _ = Except.ok _›
    · cases ‹Except.error Halt.outOfFuel = Except.error (Halt.fault _)›
    · exact houtcome

/-- The same result leaves the same number in a global. -/
theorem number? {p q : Except Halt Value × Session} (h : SameResult p q) (name : String) :
    (p.2.global? name).bind (·.value.number?) = (q.2.global? name).bind (·.value.number?) :=
  Environment.number?_of_viewed _ h.env name

/-- Evaluations that end in the same way have the same result. -/
theorem of_ends {q r : Prop} {s t : Session} {x y : Eval Value}
    (h : (Tolerance.bare q r).Ends (Tolerance.bare q r).Values (x s) (y t))
    (hx : q → Finished (s.evaluate x)) (hy : r → Finished (t.evaluate y)) :
    SameResult (s.evaluate x) (t.evaluate y) := by
  have houtput : ∀ {s t : Session}, (Tolerance.bare q r).Sessions s t →
      Event.output s.transcript.reverse = Event.output t.transcript.reverse := by
    intro s t hst
    rw [Event.output_reverse, Event.output_reverse, hst.outside.2]
  unfold Session.evaluate at hx hy ⊢
  -- only results of evaluations that do not run out of fuel are left
  generalize x s = p, y t = p' at h hx hy
  cases h with
  | ok hvw hst => exact ⟨hvw, houtput hst, hst.env, hst.nextId⟩
  | fault hfg hst =>
    exact ⟨⟨hfg.cause, congrArg List.reverse hfg.unwound⟩, houtput hst, hst.env, hst.nextId⟩
  | first hq => exact absurd rfl (hx hq)
  | second hr => exact absurd rfl (hy hr)

end SameResult

namespace Session

variable {s : Session} (hs : ∀ routine ∈ s.routines, routine.Unaware) {xs ys : List Token}
  (hbare : Token.bare xs = Token.bare ys)

include hs hbare

/-- With twice the fuel a program does what another one does that has the same bare form. -/
private theorem runTokens_double {fuel : Nat} (h : Finished (s.runTokens fuel xs)) :
    SameResult (s.runTokens fuel xs) (s.runTokens (2 * fuel) ys) := by
  refine .of_ends (q := True) (r := False) ?_ (fun _ => h) False.elim
  have hstatements := (Phrase.alike_of_bare (Nat.le_refl (2 * fuel))).agree (.statements false)
    (Alignment.bare.start hbare)
  refine Tolerance.Ends.getD (hstatements.onTokens _ _ ?_)
  exact .refl_of_unaware hs

/-- Programs with the same tokens outside comments do the same. -/
theorem runTokens_of_bare :
    ((∃ n, Finished (s.runTokens n xs)) ↔ ∃ n, Finished (s.runTokens n ys)) ∧
      ∀ n m, Finished (s.runTokens n xs) → Finished (s.runTokens m ys) →
        SameResult (s.runTokens n xs) (s.runTokens m ys) := by
  refine ⟨⟨?_, ?_⟩, ?_⟩
  · rintro ⟨n, hn⟩
    exact ⟨2 * n, (runTokens_double hs hbare hn).finished.2⟩
  · rintro ⟨n, hn⟩
    exact ⟨2 * n, (runTokens_double hs hbare.symm hn).finished.2⟩
  · intro n m hn hm
    have hsame := runTokens_double hs hbare hn
    rwa [runTokens_unique hsame.finished.2 hm] at hsame

end Session

end Tern
