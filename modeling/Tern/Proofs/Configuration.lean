import Tern.CommandLine
import Tern.Proofs.Placement

/-!
# Output and pacing are not observed

Whether printed text is thrown away, and whether pauses are left out, is noticed by nobody but the
host: two interpreters that are configured differently in this answer all requests alike, and
afterwards hold the same variables. What happens is the same for both, and each of them records the
part of it that it is asked to record.

## Key results

- `Alignment.configured`: the comparison of two sessions with other output and pacing
- `Session.serve_abreast`: peers answer a request alike, and are peers afterwards
- `configuration_unobserved`: so do they with a whole sequence of requests
-/

namespace Tern

/-! ### Events that are recorded -/

namespace Settings

/-- Whether a session with these settings records the event. -/
def records (settings : Settings) : Event → Bool
  | .printed _ => !settings.silent
  | .paused _ => !settings.unpaced

/-- What a session with these settings outputs if this text is printed. -/
def shown (settings : Settings) (text : String) : String :=
  if settings.silent then "" else text

end Settings

namespace Event

@[simp] theorem output_cons_printed (text : String) (events : List Event) :
    output (.printed text :: events) = text ++ output events := by
  simp [output]

@[simp] theorem output_cons_paused (milliseconds : Nat) (events : List Event) :
    output (.paused milliseconds :: events) = output events := by
  simp [output]

theorem output_append (events more : List Event) :
    output (events ++ more) = output events ++ output more := by
  simp [output]

/-- What is output of some events is what is output of those that are recorded. -/
theorem output_filter (settings : Settings) (events : List Event) :
    output (events.filter settings.records) = settings.shown (output events) := by
  have hempty : settings.shown (output []) = "" := by
    unfold Settings.shown
    split <;> rfl
  -- event by event; what is not recorded is not shown
  induction events with
  | nil => rw [hempty]; rfl
  | cons event events ih =>
    cases event with
    | printed text =>
      cases h : settings.silent <;> simp_all [Settings.records, Settings.shown]
    | paused milliseconds =>
      cases h : settings.unpaced <;> simp_all [Settings.records]

end Event

/-! ### The comparison -/

namespace Session

/-- Everything that was printed in the session, joined. -/
def output (session : Session) : String := Event.output session.transcript.reverse

/-- The pause that is due in this environment, if one is. -/
private def pauseDue (env : Environment) : List Event :=
  match (env.global? delayName).bind (·.value.number?) with
  | some milliseconds =>
    if 0 < milliseconds.toInt then [.paused milliseconds.toInt.toNat] else []
  | none => []

private theorem print_recorded (s : Session) (text : String) :
    (s.print text).settings = s.settings ∧
      (s.print text).transcript =
        [Event.printed text].filter s.settings.records ++ s.transcript := by
  unfold print
  cases h : s.settings.silent <;> simp [Settings.records, h]

private theorem pace_recorded (s : Session) :
    s.pace.settings = s.settings ∧
      s.pace.transcript = (pauseDue s.env).filter s.settings.records ++ s.transcript := by
  unfold pace pauseDue global?
  cases (s.env.global? delayName).bind (·.value.number?) with
  | none => exact ⟨rfl, rfl⟩
  | some milliseconds =>
    by_cases hpos : 0 < milliseconds.toInt
    · cases h : s.settings.unpaced <;> simp [Settings.records, hpos, h]
    · simp [hpos]

end Session

/-- What has happened since two sessions had these settings and these transcripts is the same, and
each has recorded its part of it. -/
def Tolerance.configured (settings settings' : Settings) (before before' : List Event) :
    Tolerance where
  view := id
  places := True
  outside σ es τ fs := σ = settings ∧ τ = settings' ∧ ∃ events : List Event,
    es = events.filter settings.records ++ before ∧ fs = events.filter settings'.records ++ before'
  firstStarves := True
  secondStarves := False

/-- Recording one thing more on both sides. -/
private theorem Tolerance.outside_recorded {settings settings' : Settings}
    {before before' : List Event} {σ τ σ' τ' : Settings} {es fs es' fs' more : List Event}
    (h : (configured settings settings' before before').outside σ es τ fs)
    (hs : σ' = σ ∧ es' = more.filter σ.records ++ es)
    (ht : τ' = τ ∧ fs' = more.filter τ.records ++ fs) :
    (configured settings settings' before before').outside σ' es' τ' fs' := by
  obtain ⟨rfl, rfl, events, rfl, rfl⟩ := h
  refine ⟨hs.1, ht.1, more ++ events, ?_, ?_⟩
  · rw [hs.2, List.filter_append, List.append_assoc]
  · rw [ht.2, List.filter_append, List.append_assoc]

/-- The comparison of sessions that may differ in output and pacing, where the first may run out of
fuel. -/
def Alignment.configured {settings settings' : Settings}
    (hdepth : settings.maxCallDepth = settings'.maxCallDepth) (before before' : List Event) :
    Alignment where
  toTolerance := .configured settings settings' before before'
  Aligned := Eq
  next := Alignment.exact.next
  here := Alignment.exact.here
  behind := Alignment.exact.behind
  start := Alignment.exact.start
  passed := Alignment.exact.passed
  quoted := Alignment.exact.quoted
  -- the limit is the only setting that evaluation asks for
  maxCallDepth h := by rw [h.1, h.2.1, hdepth]
  print {s t} text h := Tolerance.outside_recorded h (s.print_recorded text) (t.print_recorded text)
  -- a pause is as long as a variable says, and the variables are the same
  pace {s t} henv h := by
    have henv : s.env = t.env := by
      rw [← Environment.viewed_id s.env, ← Environment.viewed_id t.env]
      exact henv
    exact Tolerance.outside_recorded h s.pace_recorded (henv ▸ t.pace_recorded)

/-- Only equal cursors correspond to each other. -/
private theorem Alignment.configured_literal {settings settings' : Settings}
    (hdepth : settings.maxCallDepth = settings'.maxCallDepth) (before before' : List Event) :
    (Alignment.configured hdepth before before').Literal where
  front := Alignment.exact_literal.front
  comments := by
    rintro c d rfl
    cases Scan.comments c with
    | ok _ c' => exact .ok trivial rfl
    | error f c' => exact .fault (.refl f)

/-! ### Peers -/

namespace Session

/-- Interpreters that differ in output and pacing only. -/
structure Peers (s t : Session) : Prop where
  env : s.env = t.env
  callDepth : s.callDepth = t.callDepth
  nextId : s.nextId = t.nextId
  routines : s.routines = t.routines
  maxCallDepth : s.settings.maxCallDepth = t.settings.maxCallDepth

/-- What becomes of two peers while the same happens to both: they keep their settings, and what is
printed goes to the output of those that are not silent. -/
structure Abreast (s t s' t' : Session) : Prop where
  peers : s'.Peers t'
  settings : s'.settings = s.settings ∧ t'.settings = t.settings
  output : ∃ text, s'.output = s.output ++ s.settings.shown text ∧
    t'.output = t.output ++ t.settings.shown text

namespace Peers

variable {s t s' t' : Session}

theorem symm (h : Peers s t) : Peers t s :=
  ⟨h.env.symm, h.callDepth.symm, h.nextId.symm, h.routines.symm, h.maxCallDepth.symm⟩

/-- Peers count as the same. -/
private theorem sessions (h : Peers s t) :
    (Tolerance.configured s.settings t.settings s.transcript t.transcript).Sessions s t where
  env := congrArg _ h.env
  outside := ⟨rfl, rfl, [], rfl, rfl⟩
  callDepth := h.callDepth
  nextId := h.nextId
  routines := h.routines
  -- routines of the host get the same arguments, and may answer whatever they like
  respected routine _ vs ws hargs := by
    obtain rfl : vs = ws := by simpa [Tolerance.Lists, Tolerance.configured] using hargs
    cases routine vs with
    | ok v => exact .refl v
    | error f => exact .refl f

/-- Sessions that come to count as the same are abreast. -/
private theorem abreast (h : Peers s t)
    (h' : (Tolerance.configured s.settings t.settings s.transcript t.transcript).Sessions s' t') :
    Abreast s t s' t' := by
  -- the evaluations have recorded the same events, each as its settings say
  obtain ⟨hs, ht, events, hes, hfs⟩ := h'.outside
  have henv : s'.env = t'.env := by
    rw [← Environment.viewed_id s'.env, ← Environment.viewed_id t'.env]
    exact h'.env
  -- so each output has grown by what its settings show of them
  have houtput : ∀ {u u' : Session},
      u'.transcript = events.filter u.settings.records ++ u.transcript →
      u'.output = u.output ++ u.settings.shown (Event.output events.reverse) := by
    intro u u' hu
    rw [output, hu, List.reverse_append, Event.output_append, ← List.filter_reverse,
      Event.output_filter]
    rfl
  exact ⟨⟨henv, h'.callDepth, h'.nextId, h'.routines, by rw [hs, ht, h.maxCallDepth]⟩, ⟨hs, ht⟩,
    _, houtput hes, houtput hfs⟩

/-- A run begins alike. -/
private theorem fresh (h : Peers s t) : Peers s.fresh t.fresh :=
  ⟨congrArg Environment.reset h.env, rfl, h.nextId, h.routines, h.maxCallDepth⟩

end Peers

/-! ### Requests -/

/-- What a host asks of an interpreter. -/
inductive Request where
  | run (source : String)
  | runTokens (tokens : List Token)
  | call (function : Callable) (arguments : List Value)
  /-- Makes a function of a routine. -/
  | make (name : String) (parameters? : Option (List Parameter)) (routine : Routine)
  /-- Binds a global, whatever was there. -/
  | set (name : String) (binding : Variable)
  /-- Asks for a global. -/
  | get (name : String)

/-- What the host is answered. -/
inductive Answer where
  | ended (result : Except Fault Value)
  | made (function : Callable)
  | noted
  | found (binding? : Option Variable)

/-- The answer where an evaluation has come to an end. -/
def Answer.ofEnd? : Except Halt Value × Session → Option (Answer × Session)
  | (.ok value, s) => some (.ended (.ok value), s)
  | (.error (.fault fault), s) => some (.ended (.error fault), s)
  | (.error .outOfFuel, _) => none

/-- Does what is asked; none if the fuel does not last. -/
def serve (s : Session) (fuel : Nat) : Request → Option (Answer × Session)
  | .run source => Answer.ofEnd? (s.run fuel source)
  | .runTokens tokens => Answer.ofEnd? (s.runTokens fuel tokens)
  | .call function arguments => Answer.ofEnd? (s.call fuel function arguments)
  | .make name parameters? routine =>
    let (function, s') := s.makeHosted name parameters? routine
    some (.made function, s')
  | .set name binding => some (.noted, s.setGlobal name binding)
  | .get name => some (.found (s.global? name), s)

/-- One request after the other is answered; `trace` holds each answer and the session after it. -/
inductive Serves : Session → List Request → (trace : List (Answer × Session)) → Prop
  | nil {s : Session} : Serves s [] []
  | cons {s s' : Session} {request : Request} {answer : Answer} {requests : List Request}
      {trace : List (Answer × Session)} (fuel : Nat)
      (hserve : s.serve fuel request = some (answer, s')) (hrest : Serves s' requests trace) :
      Serves s (request :: requests) ((answer, s') :: trace)

/-- The answers are the same one by one, and the sessions are abreast from each to the next. -/
inductive InStep : (s t : Session) → (trace trace' : List (Answer × Session)) → Prop
  | nil {s t : Session} : InStep s t [] []
  | cons {s t s' t' : Session} {answer : Answer} {trace trace' : List (Answer × Session)}
      (habreast : Abreast s t s' t') (hrest : InStep s' t' trace trace') :
      InStep s t ((answer, s') :: trace) ((answer, t') :: trace')

section

variable {s t s' t' : Session} {fuel fuel' : Nat}

/-- Evaluations that agree for peers give both the same answer. -/
private theorem ofEnd?_abreast (h : Peers s t) {x y : Eval Value} {answer : Answer}
    (hxy : Eval.Agree (.configured s.settings t.settings s.transcript t.transcript) Eq x y)
    (hx : Answer.ofEnd? (s.evaluate x) = some (answer, s')) :
    ∃ t', Answer.ofEnd? (t.evaluate y) = some (answer, t') ∧ Abreast s t s' t' := by
  have hends := hxy s t h.sessions
  unfold evaluate at hx ⊢
  generalize x s = p, y t = q at hends hx ⊢
  -- the ends are the same values or the same faults
  cases hends with
  | ok hvw hst =>
    cases hx
    cases hvw
    exact ⟨_, rfl, h.abreast hst⟩
  | @fault f g _ _ hfg hst =>
    cases hx
    have hfault : f = g := by
      cases f
      cases g
      simpa using ⟨hfg.cause, hfg.span trivial, hfg.unwound⟩
    cases hfault
    exact ⟨_, rfl, h.abreast hst⟩
  | first => cases hx
  | second hT => exact hT.elim

/-- All phrases do the same for peers. -/
private theorem alike (h : Peers s t) (hle : fuel ≤ fuel') :
    Alike (Alignment.configured h.maxCallDepth s.transcript t.transcript) (Phrase.run fuel)
      (Phrase.run fuel') :=
  Phrase.alike_of_literal (Alignment.configured_literal ..) trivial hle

private theorem configured_values {settings settings' : Settings} {before before' : List Event}
    {v w : Value} (h : (Tolerance.configured settings settings' before before').Values v w) :
    v = w := by
  simpa [Tolerance.Values, Tolerance.configured] using h

/-- A run ends alike for peers, if the second has as much fuel as the first or more. -/
private theorem runTokens_abreast (h : Peers s t) (hle : fuel ≤ fuel') {tokens : List Token}
    {answer : Answer} (hs : Answer.ofEnd? (s.runTokens fuel tokens) = some (answer, s')) :
    ∃ t', Answer.ofEnd? (t.runTokens fuel' tokens) = some (answer, t') ∧ Abreast s t s' t' := by
  have hfresh : Peers s.fresh t.fresh := h.fresh
  have hagree := (alike hfresh hle).agree (.statements false) (rfl : Cursor.start tokens = _)
  obtain ⟨t', ht, habreast⟩ := ofEnd?_abreast hfresh
    (fun _ _ hst => (hagree.onTokens _ _ hst).getD.mono fun _ _ => configured_values) hs
  exact ⟨t', ht, habreast.peers, habreast.settings, habreast.output⟩

/-- Peers answer a request alike, if the second has as much fuel as the first or more. -/
theorem serve_abreast (h : Peers s t) (hle : fuel ≤ fuel') {request : Request} {answer : Answer}
    (hs : s.serve fuel request = some (answer, s')) :
    ∃ t', t.serve fuel' request = some (answer, t') ∧ Abreast s t s' t' := by
  -- what makes, sets or looks up has nothing to do with settings, and prints nothing
  have hquiet : ∀ {u v : Session}, Peers u v → u.settings = s.settings →
      v.settings = t.settings → u.transcript = s.transcript → v.transcript = t.transcript →
      Abreast s t u v := by
    intro u v huv hu hv hes hfs
    refine ⟨huv, ⟨hu, hv⟩, "", ?_, ?_⟩
    · simp [output, hes, Settings.shown]
    · simp [output, hfs, Settings.shown]
  -- evaluation is where settings could matter; all other requests only make, set or look up
  cases request with
  | run source => exact runTokens_abreast h hle hs
  | runTokens tokens => exact runTokens_abreast h hle hs
  | call function arguments =>
    have hagree := (alike h hle).call (rfl : function.viewed _ = _) (rfl : List.map _ arguments = _)
    exact ofEnd?_abreast h (hagree.mono fun _ _ => configured_values) hs
  | make name parameters? routine =>
    -- the functions made get the same identity, since as many were made before
    have hmade : (s.makeHosted name parameters? routine).1 =
        (t.makeHosted name parameters? routine).1 := by
      simp only [makeHosted, makeNative, h.nextId, h.routines]
    have hpeers : Peers (s.makeHosted name parameters? routine).2
        (t.makeHosted name parameters? routine).2 :=
      ⟨h.env, h.callDepth, congrArg (· + 1) h.nextId, congrArg (·.push routine) h.routines,
        h.maxCallDepth⟩
    cases hs
    refine ⟨(t.makeHosted name parameters? routine).2, ?_, hquiet hpeers rfl rfl rfl rfl⟩
    show some (Answer.made (t.makeHosted name parameters? routine).1, _) = _
    rw [← hmade]
    rfl
  | set name binding =>
    cases hs
    exact ⟨_, rfl, hquiet { h with env := congrArg (·.setGlobal name binding) h.env } rfl rfl rfl rfl⟩
  | get name =>
    cases hs
    refine ⟨t, ?_, hquiet h rfl rfl rfl rfl⟩
    simp only [serve, global?, h.env]

/-- With the same fuel peers answer alike or not at all. -/
private theorem serve_map_fst (h : Peers s t) (fuel : Nat) (request : Request) :
    (s.serve fuel request).map Prod.fst = (t.serve fuel request).map Prod.fst := by
  cases hs : s.serve fuel request with
  -- an answer on one side is one on the other, and the same
  | some p =>
    obtain ⟨t', ht, -⟩ := serve_abreast h (Nat.le_refl fuel) hs
    rw [ht]
    rfl
  | none =>
    cases ht : t.serve fuel request with
    | some q =>
      obtain ⟨s', hs', -⟩ := serve_abreast h.symm (Nat.le_refl fuel) ht
      rw [hs] at hs'
      cases hs'
    | none => rfl

/-- The answer tells the result. -/
private theorem fst_eq_of_ofEnd? {p q : Except Halt Value × Session}
    (h : (Answer.ofEnd? p).map Prod.fst = (Answer.ofEnd? q).map Prod.fst) : p.1 = q.1 := by
  obtain ⟨(_ | _) | _, s⟩ := p <;> obtain ⟨(_ | _) | _, t⟩ := q <;> cases h <;> rfl

/-- Two answers of peers are the same, whatever the fuel. -/
private theorem serve_unique (h : Peers s t) {request : Request} {answer answer' : Answer}
    (hs : s.serve fuel request = some (answer, s'))
    (ht : t.serve fuel' request = some (answer', t')) :
    answer = answer' ∧ Abreast s t s' t' := by
  rcases Nat.le_total fuel fuel' with hle | hle
  · obtain ⟨t'', ht'', habreast⟩ := serve_abreast h hle hs
    cases ht.symm.trans ht''
    exact ⟨rfl, habreast⟩
  · obtain ⟨s'', hs'', habreast⟩ := serve_abreast h.symm hle ht
    cases hs.symm.trans hs''
    obtain ⟨text, ht, hs⟩ := habreast.output
    exact ⟨rfl, habreast.peers.symm, habreast.settings.symm, text, hs, ht⟩

/-- What one interpreter answers its peers answer. -/
private theorem Serves.peer {requests : List Request} {trace : List (Answer × Session)}
    (hs : s.Serves requests trace) (h : Peers s t) : ∃ trace', t.Serves requests trace' := by
  induction hs generalizing t with
  | nil => exact ⟨[], .nil⟩
  | cons fuel hserve _ ih =>
    obtain ⟨t', ht', habreast⟩ := serve_abreast h (Nat.le_refl fuel) hserve
    obtain ⟨trace', hrest⟩ := ih habreast.peers
    exact ⟨_, .cons fuel ht' hrest⟩

/-- Peers answer in step. -/
private theorem Serves.inStep {requests : List Request} {trace trace' : List (Answer × Session)}
    (hs : s.Serves requests trace) (ht : t.Serves requests trace') (h : Peers s t) :
    InStep s t trace trace' := by
  induction hs generalizing t trace' with
  | nil =>
    cases ht
    exact .nil
  | cons fuel hserve _ ih =>
    cases ht with
    | cons fuel' hserve' hrest' =>
      obtain ⟨rfl, habreast⟩ := serve_unique h hserve hserve'
      exact .cons habreast (ih hrest' habreast.peers)

end

/-- Sessions that have just been made with the same limit on calls are peers. -/
theorem peers_create {settings settings' : Settings}
    (h : settings.maxCallDepth = settings'.maxCallDepth) (withNatives : Bool) :
    Peers (create settings withNatives) (create settings' withNatives) := by
  cases withNatives with
  | true => exact ⟨rfl, rfl, rfl, rfl, h⟩
  | false => exact ⟨rfl, rfl, rfl, rfl, h⟩

end Session

open Session in
/-- Output and pacing are not observed. A script that is run with other options, but with the same
limit on calls, has the same result: the same value or the same fault, or none at all. And however
an interpreter is used, one that differs in output and pacing only answers whenever it does, with
the same answers. After every answer both hold the same variables, and what was printed meanwhile
has been added to the output of each of them that is not silent. -/
theorem configuration_unobserved :
    (∀ options options' : Options, options.maxDepth = options'.maxDepth → ∀ source,
      (∀ fuel, (options.run fuel source).1 = (options'.run fuel source).1) ∧
      ((∃ fuel, Finished (options.run fuel source)) ↔
        ∃ fuel, Finished (options'.run fuel source))) ∧
    ∀ s t : Session, s.Peers t → ∀ requests,
      ((∃ trace, s.Serves requests trace) ↔ ∃ trace, t.Serves requests trace) ∧
      ∀ trace trace', s.Serves requests trace → t.Serves requests trace' →
        InStep s t trace trace' := by
  constructor
  -- the two sessions that a program is run in differ in settings only
  · intro options options' hdepth source
    have hsettings : options.settings.maxCallDepth = options'.settings.maxCallDepth :=
      congrArg (·.getD defaultMaxCallDepth) hdepth
    have hresult : ∀ fuel, (options.run fuel source).1 = (options'.run fuel source).1 := fun fuel =>
      fst_eq_of_ofEnd? (serve_map_fst (peers_create hsettings true) fuel (.run source))
    exact ⟨hresult, by simp only [Finished, hresult]⟩
  -- conversations go on together, each request after the other
  · intro s t h requests
    refine ⟨⟨?_, ?_⟩, fun trace trace' hs ht => hs.inStep ht h⟩
    · rintro ⟨trace, hs⟩
      exact hs.peer h
    · rintro ⟨trace, ht⟩
      exact ht.peer h.symm

open Session in
/-- A paced script that prints and then fails inside a function, and the same script run silently and
without pauses. -/
theorem configuration_unobserved_quiet :
    let loud : Options := {}
    let quiet : Options := { quiet := true, noDelay := true }
    let source := "delay = 7 def f(x) \x7b print(x) assert x < 1 \x7d f(0) f(1)"
    let fault : Fault :=
      { cause := .assertionFailed "x < 1", span := some ⟨37, 38⟩, unwound := ["f"] }
    let s := create loud.settings true
    let t := create quiet.settings true
    (loud.run 20 source).1 = .error (.fault fault) ∧
      (quiet.run 20 source).1 = .error (.fault fault) ∧
      (loud.run 20 source).2.output = "01" ∧ (quiet.run 20 source).2.output = "" ∧
      ∃ trace trace', s.Serves [.run source, .get "delay"] trace ∧
        t.Serves [.run source, .get "delay"] trace' ∧ InStep s t trace trace' := by
  intro loud quiet source fault s t
  obtain ⟨hfault, hloud, hquiet⟩ : (loud.run 20 source).1 = .error (.fault fault) ∧
      (loud.run 20 source).2.output = "01" ∧ (quiet.run 20 source).2.output = "" := by
    decide +kernel
  have hsame := (configuration_unobserved.1 loud quiet rfl source).1 20
  -- the conversation is a run and a look at a variable
  have hserves : ∀ {u : Session}, (u.run 20 source).1 = .error (.fault fault) →
      u.Serves [.run source, .get "delay"]
        [(.ended (.error fault), (u.run 20 source).2),
          (.found ((u.run 20 source).2.global? "delay"), (u.run 20 source).2)] := by
    intro u hu
    refine .cons 20 ?_ (.cons 0 rfl .nil)
    show Answer.ofEnd? (u.run 20 source) = _
    rw [← Prod.eta (u.run 20 source), hu]
    rfl
  have hdepth : loud.settings.maxCallDepth = quiet.settings.maxCallDepth := rfl
  have hs := hserves hfault
  have ht := hserves (hsame.symm.trans hfault)
  exact ⟨hfault, hsame.symm.trans hfault, hloud, hquiet, _, _, hs, ht,
    (configuration_unobserved.2 s t (peers_create hdepth true) _).2 _ _ hs ht⟩

end Tern
