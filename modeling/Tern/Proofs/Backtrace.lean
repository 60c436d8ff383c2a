import Tern.Proofs.Compliance

/-!
# Backtraces and the limit on calls

How many calls are active is counted in the session, while the names of the functions that a fault
leaves are added one by one on its way out. `Phrase.traced` evaluates with the functions that are
active at hand: it compares their number with the limit instead of the count, and gives a fault all
their names at once, in the body in which it was raised. It turns out to do the same.

## Key results

- `Phrase.traced_compliant`: the count is the number of active functions, and the names that a fault
  has got on its way out are theirs
- `Eval.callIn_eq_limit_iff`: a call is refused exactly if as many functions are active as allowed
- `Session.backtraces_exact`: hence runs can be made with the active functions at hand, and no
  backtrace is longer than the limit
-/

namespace Tern

/-! ### Evaluation with the active functions at hand -/

/-- A fault that has no names yet gets those of the active functions, innermost first. -/
def Fault.raisedIn (active : List String) (fault : Fault) : Fault :=
  if fault.unwound = [] then { fault with unwound := active.reverse } else fault

namespace Eval

/-- Runs `x` as the body of a function, which is the first of the active ones. A fault that leaves it
without names was raised in this very body, as calls inside it have bodies of their own. The count
of calls is kept up, but not asked for. -/
def inBody (active : List String) (x : Eval α) : Eval α := do
  modify fun session => { session with callDepth := session.callDepth + 1 }
  EStateM.adaptExcept (Halt.mapFault (·.raisedIn active)) <|
    afterwards x fun session => { session with callDepth := session.callDepth - 1 }

/-- Calls a function where others are active. `bodies` evaluates phrases in a body, given the
functions that are active there. Native functions do not count. -/
def callIn (bodies : List String → Evaluator) (active : List String) (function : Callable)
    (arguments : List Value) : Eval Value :=
  match function.body with
  | .native routine true => routine.run arguments
  | .native routine false => do
    orRaise (function.check arguments)
    routine.run arguments
  | .tokens tokens => do
    orRaise (function.check arguments)
    let session ← get
    if active.length = session.settings.maxCallDepth then
      raise (.recursionLimit session.settings.maxCallDepth)
    else
      let active := function.name :: active
      let returned ← inBody active <| inScope do
        bindParameters function.parameters arguments
        Reading.onTokens tokens (bodies active (.statements true))
      return returned.getD .void

/-- A fault that leaves a body has the names of the active functions, and there is at least one. -/
private theorem unwound_of_inBody {name : String} {active : List String} {x : Eval α} {f : Fault}
    {s t : Session} (h : inBody (name :: active) x s = .error (.fault f) t) : f.unwound ≠ [] := by
  -- a body is evaluated one call deeper, and its fault gets the names of all active functions
  have h' : EStateM.adaptExcept (Halt.mapFault (·.raisedIn (name :: active)))
      (afterwards x fun session => { session with callDepth := session.callDepth - 1 })
      { s with callDepth := s.callDepth + 1 } = .error (.fault f) t := h
  simp only [EStateM.adaptExcept] at h'
  split at h'
  · rename_i halt u _
    cases halt with
    | outOfFuel => cases h'
    | fault g =>
      cases h'
      -- the name of the function is among them, if the fault had none before
      simp only [Fault.raisedIn]
      split
      · simp
      · assumption
  · cases h'

/-- A function takes the arguments, so it is refused exactly if as many functions are active as
allowed. A call that is entered may fail for the same cause, but then with a backtrace. -/
theorem callIn_eq_limit_iff (bodies : List String → Evaluator) (active : List String)
    {function : Callable} {tokens : List Token} {arguments : List Value} (s : Session)
    (hbody : function.body = .tokens tokens) (hcheck : function.check arguments = .ok ()) :
    callIn bodies active function arguments s =
        .error (.fault { cause := .recursionLimit s.settings.maxCallDepth }) s ↔
      active.length = s.settings.maxCallDepth := by
  unfold callIn
  rw [hbody, hcheck]
  show (if active.length = s.settings.maxCallDepth then _ else _ : Eval Value) s = _ ↔ _
  constructor
  · intro h
    by_contra hlimit
    rw [if_neg hlimit] at h
    -- a fault can only come from the body, and then it has names
    simp only [Bind.bind, EStateM.bind] at h
    split at h
    · cases h
    · rename_i hfault
      cases h
      exact unwound_of_inBody hfault rfl
  · intro hlimit
    rw [if_pos hlimit]
    rfl

end Eval

/-- Evaluates a phrase with this much fuel, where these functions are active, innermost first. -/
def Phrase.traced : (fuel : Nat) → (active : List String) → Evaluator
  | 0, _ => fun _ _ => throw .outOfFuel
  | fuel + 1, active => fun _ phrase =>
    phrase.ruleWith (Eval.callIn (traced fuel) active) (traced fuel active) fuel

/-! ### It does the same -/

/-- A routine that does not put names into backtraces, and does not complain about the number of
calls. -/
def Routine.Plain (routine : Routine) : Prop :=
  ∀ arguments fault, routine arguments = .error fault →
    fault.unwound = [] ∧ ∀ n, fault.cause ≠ .recursionLimit n

/-- A fault where so many functions are active: all functions it has left and all that are active are
no more than allowed, and as many as allowed if that was the complaint. -/
structure Fault.Fits (limit active : Nat) (fault : Fault) : Prop where
  length_le : fault.unwound.length + active ≤ limit
  length_eq : ∀ n, fault.cause = .recursionLimit n →
    n = limit ∧ fault.unwound.length + active = limit

/-- A fault that has left no function. -/
theorem Fault.Fits.of_nil {limit active : Nat} (h : active ≤ limit) {fault : Fault}
    (hnil : fault.unwound = []) (hcause : ∀ n, fault.cause ≠ .recursionLimit n) :
    fault.Fits limit active := by
  refine ⟨?_, fun n hn => absurd hn (hcause n)⟩
  rw [hnil, List.length_nil]
  omega

/-- What the functions that a fault has left are where these are active. A fault without names is as
it was raised. -/
def Fault.behind (active : List String) (fault : Fault) : Fault :=
  if fault.unwound = [] then fault else { fault with unwound := active.reverse ++ fault.unwound }

/-- The names that a fault has got one by one are those that it is given at once. -/
theorem Fault.behind_leaving (fault : Fault) (name : String) (active : List String) :
    (fault.leaving name).behind active = (fault.behind (name :: active)).raisedIn (name :: active) := by
  by_cases h : fault.unwound = []
  · simp [behind, raisedIn, leaving, h]
  · simp [behind, raisedIn, leaving, h]

/-- Where these functions are active, their number is counted, and faults are written down with their
names behind. -/
def Contract.tracing {limit : Nat} {active : List String} (h : active.length ≤ limit) :
    -- nothing is asked of tokens and values, only of the number of calls and of faults
    Contract where
  Body _ := True
  Block _ := True
  Ahead _ _ := True
  Place _ := True
  Hosts := Routine.Plain
  Counts calls settings := calls = active.length ∧ settings.maxCallDepth = limit
  Raised := Fault.Fits limit active.length
  change := Fault.behind active
  started _ _ := trivial
  settled _ _ := trivial
  plain _ _ _ _ := trivial
  opened _ _ := trivial
  block _ _ := ⟨trivial, trivial, trivial⟩
  header _ _ := trivial
  condition _ _ _ := trivial
  here _ _ := trivial
  front _ _ := trivial
  -- faults of the language have no names yet, and are no recursion limit
  ordinary {cause span} hordinary _ := by
    refine .of_nil h rfl fun n hn => ?_
    obtain rfl : cause = .recursionLimit n := hn
    cases hordinary
  unmatchedBrace _ _ _ := .of_nil h rfl nofun
  unclosedBlock _ _ := .of_nil h rfl nofun
  unclosedComment _ _ := .of_nil h rfl nofun
  hosted _ _ _ := Value.has_of_forall (fun _ => trivial) _
  -- a routine of the host fails without names, so the active ones are written down
  refused {routine arguments fault} hplain _ hfault := by
    obtain ⟨hnil, hcause⟩ := hplain arguments fault hfault
    exact ⟨.of_nil h hnil hcause, by simp [Fault.behind, hnil]⟩
  located _ hfits := ⟨hfits.length_le, hfits.length_eq⟩
  change_of_nil hnil := by simp [Fault.behind, hnil]
  change_located fault span := by
    by_cases hnil : fault.unwound = [] <;> simp [Fault.behind, Fault.located, hnil]

section

variable {limit : Nat} {active : List String} (hactive : active.length ≤ limit)

/-- A body, where one function more is active. -/
theorem Contract.tracing_inCall {name : String} (hname : (name :: active).length ≤ limit)
    {x y : Eval α} {Q : α → Prop} (h : Eval.Meets (.tracing hname) x y Q) :
    Eval.Meets (.tracing hactive) (Eval.inCall name x) (Eval.inBody (name :: active) y) Q := by
  -- one function more is active in the body, and one fewer behind it
  refine h.inside (fun hs => ⟨hs.env, hs.routines, by simp [hs.counts.1], hs.counts.2⟩)
    (fun ht => ⟨ht.env, ht.routines, by simp [ht.counts.1], ht.counts.2⟩) fun {f} hf => ?_
  have hle := hf.length_le
  have heq := hf.length_eq
  simp only [List.length_cons] at hle heq
  refine ⟨⟨?_, fun n hn => ⟨(heq n hn).1, ?_⟩⟩, (f.behind_leaving name active).symm⟩
  · simp only [Fault.leaving, List.length_cons]
    omega
  · have := (heq n hn).2
    simp only [Fault.leaving, List.length_cons]
    omega

end

namespace Phrase

/-- A call, if the bodies of functions are evaluated alike. -/
theorem traced_call {limit fuel : Nat}
    (hbodies : ∀ {active : List String} (h : active.length ≤ limit) {α : Type} (phrase : Phrase α),
      phrase.Complies (.tracing h) (run fuel phrase) (traced fuel active phrase))
    {active : List String} (hactive : active.length ≤ limit) (function : Callable)
    (arguments : List Value) (harguments : ∀ v ∈ arguments, v.Has (Contract.tracing hactive).Body) :
    Eval.Meets (.tracing hactive) (Eval.call (run fuel) function arguments)
      (Eval.callIn (traced fuel) active function arguments)
      (Value.Has (Contract.tracing hactive).Body) := by
  unfold Eval.call Eval.callIn
  -- a routine of the host makes no call that counts
  cases function.body with
  | native routine variadic =>
    cases variadic with
    | true => exact .native harguments
    | false => exact .bind (.check _ _) fun _ _ => .native harguments
  | tokens tokens =>
    refine .bind (.check _ _) fun _ _ => .getting fun s hs => ?_
    obtain ⟨hcalls, hlimit⟩ : s.callDepth = active.length ∧ s.settings.maxCallDepth = limit :=
      hs.counts
    simp only [hcalls, hlimit]
    -- the count of calls is the number of active functions, so both sides refuse or neither does
    by_cases hfull : active.length = limit
    -- the refusal has the names of all active functions, and these are as many as the limit
    · rw [if_pos (by omega), if_pos hfull]
      refine .throw ⟨?_, ?_⟩ rfl
      · simpa using hactive
      · intro n hn
        cases hn
        simpa using hfull
    -- the body has one more function active, and the limit leaves room for it
    · rw [if_neg (by omega), if_neg hfull]
      have hname : (function.name :: active).length ≤ limit := by
        simp only [List.length_cons]
        omega
      have hstatements := hbodies hname (.statements true)
      have hblock : (Contract.tracing hname).Block tokens := trivial
      have hbody := (hstatements.onTokens hblock).body function.parameters harguments
      exact .bind (Contract.tracing_inCall hactive hname hbody) fun v? hv =>
        .pure (Value.has_getD hv)

/-- With the active functions at hand every phrase is evaluated alike. -/
theorem traced_compliant {limit : Nat} (fuel : Nat) {active : List String}
    (hactive : active.length ≤ limit) :
    Compliant (.tracing hactive) (run fuel) (traced fuel active)
      (Eval.callIn (traced fuel) active) := by
  have hphrase : ∀ (fuel : Nat) {active : List String} (h : active.length ≤ limit) {α : Type}
      (phrase : Phrase α),
      phrase.Complies (.tracing h) (run fuel phrase) (traced fuel active phrase) := by
    intro fuel
    induction fuel with
    | zero => exact fun _ _ phrase => phrase.starved_complies
    | succ fuel ih =>
      -- bodies are evaluated with other functions active, so the induction is for all of them
      intro active h α phrase
      have hcompliant : Compliant (.tracing h) (run fuel) (traced fuel active)
          (Eval.callIn (traced fuel) active) :=
        ⟨fun phrase => (ih h phrase).inside, fun f vs _ => traced_call ih h f vs⟩
      exact hcompliant.rule (ih h (.statements true)) fuel phrase
  -- the statement is about what is around a phrase, so it is proved there for each phrase
  exact ⟨fun phrase => (hphrase fuel hactive phrase).inside,
    fun f vs _ => traced_call (hphrase fuel) hactive f vs⟩

end Phrase

/-! ### Runs -/

namespace Session

/-- Backtraces are exact, and so is the limit on calls. If the routines of the host put no names into
backtraces and do not complain about the number of calls:

* a run does what it does with the active functions at hand, where a fault gets its backtrace in the
  body in which it is raised: the functions that are active there, innermost first;
* no backtrace is longer than the limit, and that of a complaint about the limit names the limit and
  is exactly as long;
* there, a function that takes its arguments is refused exactly if as many functions are active as
  allowed. -/
theorem backtraces_exact (s : Session) (hs : ∀ routine ∈ s.routines, routine.Plain) (fuel : Nat) :
    (∀ tokens, s.runTokens fuel tokens = s.fresh.evaluate do
      return (← Reading.onTokens tokens (Phrase.traced fuel [] (.statements false))).getD .void) ∧
    (∀ tokens f, (s.runTokens fuel tokens).1 = .error (.fault f) →
      f.backtrace.length ≤ s.settings.maxCallDepth ∧
        ∀ n, f.cause = .recursionLimit n →
          n = s.settings.maxCallDepth ∧ f.backtrace.length = s.settings.maxCallDepth) ∧
    ∀ (active : List String) (function : Callable) (block : List Token) (arguments : List Value)
        (t : Session), function.body = .tokens block → function.check arguments = .ok () →
      (Eval.callIn (Phrase.traced fuel) active function arguments t =
          .error (.fault { cause := .recursionLimit t.settings.maxCallDepth }) t ↔
        active.length = t.settings.maxCallDepth) := by
  have hroot : ([] : List String).length ≤ s.settings.maxCallDepth := Nat.zero_le _
  have hfresh : (Contract.tracing hroot).Holds s.fresh :=
    ⟨fun _ _ _ _ _ => Value.has_of_forall (fun _ => trivial) _, hs, rfl, rfl⟩
  have hblock : ∀ tokens, (Contract.tracing hroot).Block tokens := fun _ => trivial
  -- the run ends as the evaluation that knows the active functions does
  have hends := fun tokens =>
    (Phrase.traced_compliant fuel hroot).run hfresh (hblock tokens)
  refine ⟨fun tokens => ?_, fun tokens f hf => ?_, ?_⟩
  · -- at the root no function is active, so faults are written down as they are
    have hsame : ∀ f, (Contract.tracing hroot).change f = f := by
      intro f
      show f.behind [] = f
      simp [Fault.behind]
    show s.fresh.evaluate _ = s.fresh.evaluate _
    unfold evaluate
    rw [(hends tokens).eq hsame]
  -- no fault has more names than there can be calls
  · have hfits : f.Fits s.settings.maxCallDepth 0 := (hends tokens).kept.fault f hf
    rw [Fault.backtrace, List.length_reverse]
    exact ⟨hfits.length_le, hfits.length_eq⟩
  · intro active function block arguments t hbody hcheck
    exact Eval.callIn_eq_limit_iff _ active t hbody hcheck

/-- Where two calls may be active: a routine of the host fails in the inner one of two functions, and
another function calls itself without end. -/
theorem backtraces_exact_twice :
    let fail : Routine := fun _ => .error { cause := .native "no" }
    let s := { settings := { maxCallDepth := 2 } : Session }.addRoutine "fail" none fail
    let failing := tokenize "def g() \x7b fail() \x7d def f() \x7b g() \x7d f()"
    let endless := tokenize "def h() \x7b h() \x7d h()"
    let refused : Fault :=
      { cause := .recursionLimit 2, span := some ⟨10, 11⟩, unwound := ["h", "h"] }
    let h : Callable :=
      { id := 0, name := "h", parameters := [], returns := none, body := .tokens [] }
    (∀ routine ∈ s.routines, routine.Plain) ∧
      (s.fresh.evaluate do
        return (← Reading.onTokens failing (Phrase.traced 12 [] (.statements false))).getD .void).1 =
        .error (.fault { cause := .native "no", span := some ⟨10, 14⟩, unwound := ["f", "g"] }) ∧
      (s.runTokens 12 endless).1 = .error (.fault refused) ∧ refused.backtrace.length = 2 ∧
      Eval.callIn (Phrase.traced 12) ["b", "a"] h [] s =
        .error (.fault { cause := .recursionLimit 2 }) s := by
  intro fail s failing endless refused h
  -- its fault has no names, and is no limit
  have hfail : fail.Plain := by
    intro arguments fault hfault
    cases hfault
    exact ⟨rfl, nofun⟩
  have hs : ∀ routine ∈ s.routines, routine.Plain := by simpa [s] using hfail
  obtain ⟨hrun, hlength, hlimit⟩ := backtraces_exact s hs 12
  have hendless : (s.runTokens 12 endless).1 = .error (.fault refused) := by decide +kernel
  -- the limit was reached, so the backtrace is as long as the limit
  refine ⟨hs, ?_, hendless, ((hlength endless refused hendless).2 2 rfl).2, ?_⟩
  · rw [← hrun failing]
    decide +kernel
  · exact (hlimit ["b", "a"] h [] [] s rfl rfl).mpr rfl

end Session

end Tern
