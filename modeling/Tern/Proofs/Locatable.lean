import Tern.CommandLine
import Tern.Proofs.Comments
import Tern.Proofs.Coordinates
import Tern.Proofs.Location
import Tern.Proofs.Placement
import Tern.Proofs.Tiling

/-!
# Faults can be looked up

Whoever gets a fault wants to see where it happened. Every fault that ends a run has a place. That
place is a stretch of one of the texts that were run, from one place between characters to another,
so there is a line and a column to show.

A fault without a place gets one from the statement in which it arises, at the latest. The place is
that of a token, and tokens are stretches of the text they are read from; functions keep the tokens
they are made of, so a later run may fail in an earlier text.

## Key results

- `Phrase.statements_placed`: no fault leaves statements without a place
- `Session.faults_located`: the faults of runs can be looked up
-/

namespace Tern

/-! ### No fault without a place -/

namespace Reading

/-- Faults that leave the reading have a place. -/
def Placed (x : Reading α) : Prop :=
  ∀ c s f t, x c s = .error (.fault f) t → ∃ span, f.span = some span

namespace Placed

/-- A reading that never fails. -/
private theorem of_ok {x : Reading α} (h : ∀ c s, ∃ p t, x c s = .ok p t) : Placed x := by
  intro c s f t hfault
  obtain ⟨p, t', hok⟩ := h c s
  rw [hok] at hfault
  cases hfault

protected theorem pure (a : α) : Placed (pure a) := .of_ok fun c s => ⟨(a, c), s, rfl⟩

protected theorem raiseAt (span : Span) (cause : Cause) : Placed (raiseAt span cause : Reading α) := by
  intro c s f t h
  cases h
  exact ⟨span, rfl⟩

/-- A fault that has no place gets one. -/
protected theorem locate (span : Span) (x : Reading α) : Placed (locate span x) := by
  intro c s f t h
  simp only [Reading.locate, Eval.locate, EStateM.adaptExcept] at h
  split at h
  · rename_i halt t' _
    cases halt with
    | outOfFuel => cases h
    | fault f' =>
      cases h
      -- a place that is known is kept
      cases hspan : f'.span with
      | some place => exact ⟨place, by simp [Fault.located, hspan]⟩
      | none => exact ⟨span, by simp [Fault.located, hspan]⟩
  · cases h

/-- Readings in sequence. -/
protected theorem bind {x : Reading α} {g : α → Reading β} (hx : Placed x) (hg : ∀ a, Placed (g a)) :
    Placed (x >>= g) := by
  intro c s f t h
  replace h : EStateM.bind (x c) (fun p => g p.1 p.2) s = .error (.fault f) t := h
  unfold EStateM.bind at h
  split at h
  · exact hg _ _ _ _ _ h
  · rename_i hfault
    cases h
    exact hx _ _ _ _ hfault

/-- A step over a token. -/
protected theorem next : Placed next := by
  refine .of_ok fun c s => ?_
  simp only [Reading.next, Reading.scan]
  cases hnext : c.next? with
  | none =>
    rw [Scan.next_of_none hnext]
    exact ⟨_, _, rfl⟩
  | some p =>
    rw [Scan.next_of_some hnext]
    exact ⟨_, _, rfl⟩

private theorem returned (self : Evaluator) (span : Span) : Placed (returned self span) := by
  refine .bind (.of_ok fun c s => ⟨(s, c), s, rfl⟩) fun session => ?_
  split
  · exact .raiseAt span _
  · refine .bind .next fun _ => .bind (.of_ok fun c s => ⟨(c, c), s, rfl⟩) fun c => ?_
    split
    · exact .pure _
    · exact .locate span _

private theorem dispatched {self : Evaluator} (hothers : Placed (self (.statements true)))
    (fuel : Nat) (token : Token) : Placed (dispatched self fuel token) := by
  refine .bind (.locate token.span _) fun outcome => ?_
  cases outcome with
  | declined => exact .raiseAt token.span _
  | done => exact hothers
  | returned value => exact .pure _

end Placed

end Reading

/-- No fault leaves statements without a place: that of the statement, at the latest. -/
theorem Phrase.statements_placed (fuel : Nat) (paced : Bool) :
    Reading.Placed (run fuel (.statements paced)) := by
  induction fuel generalizing paced with
  -- without fuel there is no fault but this, and it is none of the language
  | zero =>
    intro c s f t h
    cases h
  | succ fuel ih =>
    intro c s f t h
    rw [run_succ, rule] at h
    cases hfront : c.front with
    -- the end of the tokens is no fault
    | none =>
      rw [Reading.statements_of_none hfront] at h
      cases h
    | some token =>
      -- a brace that nothing opened, and `return` at the root, are raised with their places
      by_cases hbrace : token.kind = .symbol .rightBrace
      · rw [Reading.statements_of_brace hfront hbrace] at h
        exact Reading.Placed.raiseAt token.span _ c s f t h
      by_cases hreturn : token.kind = .keyword .returnKw
      · rw [Reading.statements_of_return hfront hreturn, map_eq_pure_bind] at h
        exact Reading.Placed.bind (.returned _ token.span) (fun _ => .pure _) c s f t h
      · -- this statement is given its place, and those behind it are statements again
        rw [Reading.statements_of_front hfront hbrace hreturn] at h
        exact Reading.Placed.dispatched (ih true) fuel token c _ f t h

/-! ### Runs -/

/-- A routine that gives no places to faults, and makes no functions: those that it hands out have
been given to it. -/
def Routine.Discreet (routine : Routine) : Prop := ∀ P, routine.Modest P

/-- Nothing is registered or dropped while something is executed. -/
private def Discipline.hosting : Discipline where
  Rel _ s t := t.routines = s.routines
  refl _ _ := rfl
  trans h h' := h'.trans h
  ofExpression h := h
  ofStatement h := h
  define _ := rfl
  assign _ := rfl
  outside _ _ _ := rfl
  scope h := h
  call h := h

/-- A token of one of the texts. -/
def Token.From (sources : List String) (token : Token) : Prop :=
  ∃ source ∈ sources, token ∈ tokenize source

namespace Session

/-- The sessions that have run these programs, latest first. Routines may be registered and globals
be bound at any time, functions too if they are native or stem from these programs. -/
inductive HasRun : List String → Session → Prop where
  | create (settings : Settings) (withNatives : Bool) : HasRun [] (create settings withNatives)
  | register {sources : List String} {s : Session} (name : String)
      (parameters? : Option (List Parameter)) {routine : Routine} :
      HasRun sources s → routine.Discreet → HasRun sources (s.addRoutine name parameters? routine)
  | set {sources : List String} {s : Session} (name : String) {binding : Variable} :
      HasRun sources s → binding.value.Has (fun body => ∀ token ∈ body, token.From sources) →
      HasRun sources (s.setGlobal name binding)
  | run {sources : List String} {s : Session} (fuel : Nat) (source : String) :
      HasRun sources s → HasRun (source :: sources) (s.run fuel source).2

/-- What ends a run with a fault are the statements of the program. -/
theorem eq_fault_of_run {s : Session} {fuel : Nat} {source : String} {f : Fault}
    (h : (s.run fuel source).1 = .error (.fault f)) :
    ∃ t, Phrase.run fuel (.statements false) (.start (tokenize source)) s.fresh =
      .error (.fault f) t := by
  rw [run, runTokens_eq_conclude] at h
  cases hstatements : Phrase.run fuel (.statements false) (.start (tokenize source)) s.fresh with
  | ok p t =>
    rw [hstatements] at h
    cases h
  | error halt t =>
    rw [hstatements] at h
    cases h
    exact ⟨t, rfl⟩

/-- Functions are made of tokens of the texts that were run. -/
private structure Stocked (sources : List String) (s : Session) : Prop where
  env : s.env.All (Value.Has fun body => ∀ token ∈ body, token.From sources)
  routines : ∀ routine ∈ s.routines, routine.Discreet

/-- A run where functions are made of tokens of earlier texts. -/
private theorem Stocked.run {sources : List String} {s : Session} (h : s.Stocked sources)
    (fuel : Nat) (source : String) :
    ∃ hknown : ∀ token ∈ tokenize source, token.From (source :: sources),
      (Contract.locating hknown).Kept (Value.Has (Contract.locating hknown).Body)
        (s.run fuel source) := by
  have hknown : ∀ token ∈ tokenize source, token.From (source :: sources) :=
    fun token hmem => ⟨source, List.mem_cons_self, hmem⟩
  have hearlier : ∀ token : Token, token.From sources → token.From (source :: sources) := by
    rintro token ⟨text, htext, hmem⟩
    exact ⟨text, List.mem_cons_of_mem _ htext, hmem⟩
  -- one text more is known, so what was said of functions still holds
  have hfresh : (Contract.locating hknown).Holds s.fresh := by
    refine ⟨h.env.reset.mono fun v hv => ?_, fun routine hroutine => h.routines routine hroutine _,
      trivial⟩
    exact hv.mono fun body hbody token hmem => hearlier token (hbody token hmem)
  have hends := (Phrase.located_compliant fuel hknown).run hfresh (List.infix_refl _)
  exact ⟨hknown, hends.kept⟩

/-- One thing after the other, functions are made of tokens of the texts that were run. -/
private theorem HasRun.stocked {sources : List String} {s : Session} (h : s.HasRun sources) :
    s.Stocked sources := by
  -- by what the host has done with the session so far
  induction h with
  | create settings withNatives =>
    have hknown : ∀ token ∈ [], Token.From [] token := nofun
    have hholds : (Contract.locating hknown).Holds (Session.create settings withNatives) :=
      .create trivial withNatives
    exact ⟨hholds.env, by simp⟩
  | register name parameters? _ hroutine ih =>
    -- the new routine is known to be discreet, the others were before
    refine ⟨ih.env.setGlobal trivial, fun other hother => ?_⟩
    rcases Array.mem_push.mp hother with hmem | rfl
    · exact ih.routines other hmem
    · exact hroutine
  | set name _ hvalue ih => exact ⟨ih.env.setGlobal hvalue, ih.routines⟩
  | @run sources s fuel source _ ih =>
    obtain ⟨hknown, hkept⟩ := ih.run fuel source
    -- a run leaves the routines of the host alone
    have hroutines : (s.run fuel source).2.routines = s.routines := by
      rw [Session.run, runTokens_snd]
      exact (Execution.statements false _).keeps .hosting fuel trivial
    exact ⟨hkept.session.env, hroutines ▸ ih.routines⟩

/-- The faults of runs can be looked up. If the routines of the host give no places to faults and
make no functions, and programs are of less than 4 GiB, then a fault that ends a run has a place,
which is a stretch of the program or of one that was run before: it begins and ends between
characters of that text. What is shown with that
text has a line for the place, with the number of lines up to the place and the number of characters
on the last of them. -/
theorem faults_located {sources : List String} {s : Session} (hs : s.HasRun sources) {fuel : Nat}
    {source : String} (hsmall : ∀ text ∈ source :: sources, text.utf8ByteSize ≤ Span.maxOffset)
    {f : Fault} (hfault : (s.run fuel source).1 = .error (.fault f)) :
    ∃ span, f.span = some span ∧
      ∃ text ∈ source :: sources, ∃ before inside behind : List Char,
        text.toList = before ++ inside ++ behind ∧
        span.start = utf8Width before ∧ span.stop = utf8Width (before ++ inside) ∧
        span.start ≤ span.stop ∧ span.stop ≤ text.utf8ByteSize ∧
        ∀ path, f.render path text =
          "error[" ++ f.cause.category ++ "]: " ++ f.cause.message ++
            "\n  --> " ++ path ++ ":" ++ toString (before.count '\n' + 1) ++
            ":" ++ toString ((before.reverse.takeWhile (· ≠ '\n')).length + 1) ++
            String.join (f.backtrace.map fun name => "\n  in function `" ++ name ++ "`") := by
  -- the fault is one of the statements, and those have places
  obtain ⟨t, hstatements⟩ := eq_fault_of_run hfault
  obtain ⟨span, hspan⟩ := Phrase.statements_placed fuel false _ _ f t hstatements
  -- and the places are among the tokens of the sources
  obtain ⟨hknown, hkept⟩ := hs.stocked.run fuel source
  have hplace : span.Marks (Token.From (source :: sources)) ∨ span = .point 0 :=
    (hkept.fault f hfault span hspan).1
  -- either way it is a stretch of one of the texts
  obtain ⟨text, htext, before, inside, behind, hsplit, hbounds⟩ :
      ∃ text ∈ source :: sources, span.Within text.toList := by
    obtain ⟨token, ⟨text, htext, hmem⟩, rfl | rfl⟩ | rfl := hplace
    · exact ⟨text, htext, Token.within_of_mem hmem⟩
    · exact ⟨text, htext, (Token.within_of_mem hmem).stop⟩
    · exact ⟨source, List.mem_cons_self, Span.within_front _⟩
  -- in a text of this size the offsets are recorded as they are
  rw [Span.between_of_stretch hsplit (by rw [utf8Width_toList]; exact hsmall text htext)] at hbounds
  -- the position is reached by reading the characters in front
  have hposition : span.position text = Position.after before :=
    Span.position_eq (hsplit.trans (List.append_assoc ..)) (by rw [hbounds])
  refine ⟨span, hspan, text, htext, before, inside, behind, hsplit, by rw [hbounds],
    by rw [hbounds], ?_, ?_, fun path => ?_⟩
  · simp [hbounds]
  · rw [← utf8Width_toList, hsplit, hbounds]
    simp
  · rw [Position.after_eq] at hposition
    simp only [Fault.render, hspan, hposition, String.append_assoc]

/-- A run that fails in a function of an earlier text. -/
theorem faults_located_earlier :
    let fail : Routine := fun _ => .error { cause := .native "no" }
    let s := (create {} true).addRoutine "fail" none fail
    let earlier := "// é\ndef f() \x7b\n  fail()\n\x7d"
    let later := "print(1)\nf()"
    let fault : Fault := { cause := .native "no", span := some ⟨18, 22⟩, unwound := ["f"] }
    (s.run 12 earlier).2.HasRun [earlier] ∧
      ((s.run 12 earlier).2.run 12 later).1 = .error (.fault fault) ∧
      (∀ text ∈ [later, earlier], text.utf8ByteSize ≤ Span.maxOffset) ∧
      (∃ span, fault.span = some span ∧ ∃ text ∈ [later, earlier], span.Within text.toList) ∧
      fault.render "f.tern" earlier =
        "error[NativeError]: no\n  --> f.tern:3:3\n  in function `f`" := by
  intro fail s earlier later fault
  -- the routine fails without a place
  have hfail : fail.Discreet := by
    refine fun P => ⟨fun arguments fault hfault => ?_, nofun⟩
    cases hfault
    rfl
  have hrun : (s.run 12 earlier).2.HasRun [earlier] :=
    .run 12 earlier (.register "fail" none (.create {} true) hfail)
  obtain ⟨hfault, hsmall, hrender⟩ :
      ((s.run 12 earlier).2.run 12 later).1 = .error (.fault fault) ∧
      (∀ text ∈ [later, earlier], text.utf8ByteSize ≤ Span.maxOffset) ∧
      fault.render "f.tern" earlier =
        "error[NativeError]: no\n  --> f.tern:3:3\n  in function `f`" := by
    decide +kernel
  -- the function was declared by the first source, so the place is in one of the two
  obtain ⟨span, hspan, text, htext, before, inside, behind, hsplit, hstart, hstop, -⟩ :=
    faults_located hrun hsmall hfault
  refine ⟨hrun, hfault, hsmall, ⟨span, hspan, text, htext, before, inside, behind, hsplit, ?_⟩,
    hrender⟩
  rw [Span.between_of_stretch hsplit (by rw [utf8Width_toList]; exact hsmall text htext),
    ← hstart, ← hstop]

end Session

end Tern
