import Tern.Evaluation.Run
import Tern.Proofs.Expression.Tree
import Tern.Proofs.Landing
import Tern.Proofs.Values

/-!
# What evaluations are trusted with

A `Contract` says what evaluations may rely on and what they have to stand for: what the tokens ahead
of a cursor and in the bodies of functions are like, how many calls are active, and which faults may
arise and at which places. `Eval.Meets` is that an evaluation stands for it, in whatever way it ends.

Two evaluations are followed side by side. They do the same, except that the second may write faults
down in another way: where the first one fails with a fault, the second fails with what the contract
makes of that fault. A fault that has left no function yet is the same to both.

Readings step over single tokens, and blocks are cut out whole. So a contract tells apart only how
many braces are open at a cursor: none, or one where the block behind it is to be cut out.

## Key results

- `Eval.Meets.bind`, `Eval.Meets.inScope`, `Eval.Meets.iterate`: the combinators meet a contract
- `Contract.Holds.define`, `Contract.Holds.assign`, `Contract.Holds.native`: so do single steps
- `Scan.Meets.block`, `Scan.Meets.skipArms`: and the scans that step over blocks
-/

namespace Tern

open Cursor (Reads)

/-- What evaluations rely on and stand for. -/
structure Contract where
  /-- What the tokens in the body of a function are like. -/
  Body : List Token → Prop
  /-- What the tokens of a block are like. -/
  Block : List Token → Prop
  /-- What the tokens at a cursor are like where so many braces are open. -/
  Ahead : Nat → Cursor → Prop
  /-- Where faults may arise. -/
  Place : Span → Prop
  /-- What is asked of the routines of the host. -/
  Hosts : Routine → Prop
  /-- How many calls may be active, under which settings. -/
  Counts : Nat → Settings → Prop
  /-- The faults that may arise. -/
  Raised : Fault → Prop
  /-- How the second evaluation writes down a fault. -/
  change : Fault → Fault
  -- what is ahead is kept by everything that moves a cursor
  started : ∀ {tokens}, Block tokens → tokens ≠ [] → Ahead 0 (.start tokens)
  settled : ∀ {c : Cursor}, Ahead 0 c → c.unclosed? = none → Ahead 0 c.settle
  plain : ∀ {kind} {c c' : Cursor}, Ahead 0 c → Reads c [kind] c' →
    kind ≠ .symbol .leftBrace → kind ≠ .symbol .rightBrace → Ahead 0 c'
  opened : ∀ {c c' : Cursor}, Ahead 0 c → Reads c [.symbol .leftBrace] c' → Ahead 1 c'
  block : ∀ {body} {c c' : Cursor}, Ahead 1 c → Scan.block c = .ok body c' →
    Body body ∧ Block body ∧ Ahead 0 c'
  header : ∀ {what condition} {c c' : Cursor}, Ahead 0 c →
    Scan.untilBrace what c = .ok condition c' → Ahead 1 c'
  condition : ∀ {what condition} {c c₁ c₂ : Cursor}, Ahead 0 c → Reads c [.keyword .whileKw] c₁ →
    Scan.untilBrace what c₁ = .ok condition c₂ → Ahead 0 (.start condition)
  -- faults arise at tokens that are ahead, or behind those that were read
  here : ∀ {n kinds} {c c' : Cursor}, Ahead n c → Reads c kinds c' → Place c'.here
  front : ∀ {token} {c : Cursor}, Ahead 0 c → c.front = some token → Place token.span
  -- and only the three faults about brackets tell more of the tokens than where they are
  ordinary : ∀ {cause span}, cause.isOrdinary = true → (∀ place ∈ span, Place place) →
    Raised { cause, span }
  unmatchedBrace : ∀ {token} {c : Cursor}, Ahead 0 c → c.front = some token →
    token.kind = .symbol .rightBrace → Raised (.malformed .unmatchedBrace token.span)
  unclosedBlock : ∀ {span} {c c' : Cursor}, Ahead 1 c →
    Scan.block c = .error (.malformed .unclosedBlock span) c' →
    Raised (.malformed .unclosedBlock span)
  unclosedComment : ∀ {mark} {c : Cursor}, Ahead 0 c → c.unclosed? = some mark →
    Raised (.malformed .unclosedComment mark.span)
  -- routines of the host answer with what they may
  hosted : ∀ {routine arguments value}, Hosts routine → (∀ v ∈ arguments, v.Has Body) →
    routine arguments = .ok value → value.Has Body
  refused : ∀ {routine arguments fault}, Hosts routine → (∀ v ∈ arguments, v.Has Body) →
    routine arguments = .error fault → Raised fault ∧ change fault = fault
  -- the place that a fault is given, and the way it is written down
  located : ∀ {fault span}, Place span → Raised fault → Raised (fault.located span)
  change_of_nil : ∀ {fault}, fault.unwound = [] → change fault = fault
  change_located : ∀ fault span, change (fault.located span) = (change fault).located span

/-! A contract may leave all faults as they are. -/

theorem Fault.id_of_nil {fault : Fault} (_ : fault.unwound = []) : id fault = fault := rfl

theorem Fault.id_located (fault : Fault) (span : Span) :
    id (fault.located span) = (id fault).located span := rfl

variable {R : Contract}

/-- The next token stands where faults may arise. -/
theorem Contract.peeked (R : Contract) {n : Nat} {c : Cursor} {token : Token} (hc : R.Ahead n c)
    (hpeek : c.peek = some token) : R.Place token.span := by
  have hhere := R.here hc (.nil c)
  rwa [Cursor.here, hpeek] at hhere

/-- What holds of a session under the contract. -/
structure Contract.Holds (R : Contract) (s : Session) : Prop where
  env : s.env.All (Value.Has R.Body)
  routines : ∀ routine ∈ s.routines, R.Hosts routine
  counts : R.Counts s.callDepth s.settings

/-- How two evaluations end under the contract, the first one with a result as `Q` says if it has
one. -/
inductive Contract.Ends (R : Contract) (Q : α → Prop) :
    EStateM.Result Halt Session α → EStateM.Result Halt Session α → Prop
  | ok {a : α} {t : Session} : Q a → R.Holds t → Ends R Q (.ok a t) (.ok a t)
  | fault {f : Fault} {t : Session} : R.Raised f → R.Holds t →
    Ends R Q (.error (.fault f) t) (.error (.fault (R.change f)) t)
  | starved {t : Session} : R.Holds t → Ends R Q (.error .outOfFuel t) (.error .outOfFuel t)

/-- A fault that is the same to both. -/
theorem Contract.Ends.same {Q : α → Prop} {f : Fault} {t : Session} (hraised : R.Raised f)
    (hsame : R.change f = f) (ht : R.Holds t) :
    R.Ends Q (.error (.fault f) t) (.error (.fault f) t) := by
  have hends : R.Ends Q (.error (.fault f) t) (.error (.fault (R.change f)) t) := .fault hraised ht
  rwa [hsame] at hends

/-- If faults are written down as they are, both ends are the same. -/
theorem Contract.Ends.eq {Q : α → Prop} {r r' : EStateM.Result Halt Session α}
    (hsame : ∀ f, R.change f = f) (h : R.Ends Q r r') : r' = r := by
  cases h with
  | ok | starved => rfl
  | fault => rw [hsame]

/-! ### Evaluations -/

namespace Eval

/-- From every session that the contract is about, the evaluations end as it says. -/
def Meets (R : Contract) (x y : Eval α) (Q : α → Prop) : Prop :=
  ∀ s, R.Holds s → R.Ends Q (x s) (y s)

namespace Meets

variable {x y : Eval α} {P Q : α → Prop}

/-- Saying less about the result. -/
theorem mono (h : Meets R x y P) (hPQ : ∀ a, P a → Q a) : Meets R x y Q := by
  intro s hs
  have hends := h s hs
  generalize x s = r at hends ⊢
  generalize y s = r' at hends ⊢
  cases hends with
  | ok hP ht => exact .ok (hPQ _ hP) ht
  | fault hf ht => exact .fault hf ht
  | starved ht => exact .starved ht

protected theorem pure {a : α} (h : Q a) : Meets R (pure a) (pure a) Q := fun _ hs => .ok h hs

/-- A fault that has left no function. -/
protected theorem throw {f : Fault} (hraised : R.Raised f) (hsame : R.change f = f) :
    Meets R (throw (.fault f) : Eval α) (throw (.fault f)) Q :=
  fun _ hs => .same hraised hsame hs

theorem starve : Meets R (throw .outOfFuel : Eval α) (throw .outOfFuel) Q := fun _ hs => .starved hs

theorem raise {cause : Cause} (h : cause.isOrdinary = true) :
    Meets R (Eval.raise cause : Eval α) (Eval.raise cause) Q :=
  .throw (R.ordinary h (by simp)) (R.change_of_nil rfl)

theorem orRaise {r : Except Cause α} (hok : ∀ a, r = .ok a → Q a)
    (herror : ∀ cause, r = .error cause → cause.isOrdinary = true) :
    Meets R (Eval.orRaise r) (Eval.orRaise r) Q := by
  cases r with
  | ok a => exact .pure (hok a rfl)
  | error cause => exact .raise (herror cause rfl)

/-- Evaluations in sequence. -/
protected theorem bind {f g : α → Eval β} {Q : β → Prop} (hxy : Meets R x y P)
    (hfg : ∀ a, P a → Meets R (f a) (g a) Q) : Meets R (x >>= f) (y >>= g) Q := by
  intro s hs
  have hends := hxy s hs
  simp only [Bind.bind, EStateM.bind]
  -- only after a success there is something to go on with
  generalize x s = r at hends
  generalize y s = r' at hends
  cases hends with
  | ok ha ht => exact hfg _ ha _ ht
  | fault hf ht => exact .fault hf ht
  | starved ht => exact .starved ht

/-- A look at the session. -/
theorem getting {f g : Session → Eval α} (h : ∀ s, R.Holds s → Meets R (f s) (g s) Q) :
    Meets R (get >>= f) (get >>= g) Q :=
  fun s hs => h s hs s hs

/-- A change to the session. -/
theorem modifying {f : Session → Session} (hf : ∀ s, R.Holds s → R.Holds (f s)) :
    Meets R (modify f : Eval Unit) (modify f) fun _ => True :=
  fun s hs => .ok trivial (hf s hs)

/-- Places for faults. -/
theorem locate {span : Span} (hplace : R.Place span) (h : Meets R x y Q) :
    Meets R (Eval.locate span x) (Eval.locate span y) Q := by
  intro s hs
  -- both ends are the same, so the place is given on both sides or on neither
  have hends := h s hs
  simp only [Eval.locate, EStateM.adaptExcept]
  generalize x s = r at hends
  generalize y s = r' at hends
  cases hends with
  | ok ha ht => exact .ok ha ht
  | fault hf ht =>
    simp only [Halt.mapFault, ← R.change_located]
    exact .fault (R.located hplace hf) ht
  | starved ht => exact .starved ht

/-- Loops. -/
theorem iterate {body body' : Nat → Eval (Option α)} {atEnd atEnd' : Eval α}
    (hbody : ∀ i, Meets R (body i) (body' i) fun result => ∀ a ∈ result, Q a)
    (hend : Meets R atEnd atEnd' Q) (index count : Nat) :
    Meets R (Eval.iterate body atEnd index count) (Eval.iterate body' atEnd' index count) Q := by
  induction count generalizing index with
  | zero => exact hend
  | succ count ih =>
    rw [iterate_succ, iterate_succ]
    refine .bind (hbody index) fun result hresult => ?_
    cases result with
    | some a => exact .pure (hresult a rfl)
    | none => exact ih (index + 1)

end Meets

end Eval

/-! ### Single steps -/

namespace Contract.Holds

variable {s : Session} (h : R.Holds s)

include h

theorem push : R.Holds { s with env := s.env.push } := ⟨h.env.push, h.routines, h.counts⟩

theorem pop : R.Holds { s with env := s.env.pop } := ⟨h.env.pop, h.routines, h.counts⟩

theorem pace : R.Holds s.pace := by
  unfold Session.pace
  split
  · split
    · exact ⟨h.env, h.routines, h.counts⟩
    · exact h
  · exact h

theorem print (text : String) : R.Holds (s.print text) := by
  unfold Session.print
  split
  · exact h
  · exact ⟨h.env, h.routines, h.counts⟩

theorem setGlobal (name : String) {binding : Variable} (hvalue : binding.value.Has R.Body) :
    R.Holds (s.setGlobal name binding) :=
  ⟨h.env.setGlobal hvalue, h.routines, h.counts⟩

theorem makeHosted (name : String) (parameters? : Option (List Parameter)) {routine : Routine}
    (hroutine : R.Hosts routine) : R.Holds (s.makeHosted name parameters? routine).2 := by
  refine ⟨h.env, fun other hother => ?_, h.counts⟩
  rcases Array.mem_push.mp hother with hmem | rfl
  · exact h.routines other hmem
  · exact hroutine

omit h in
/-- A session that has just been made has no functions but native ones. -/
theorem create {settings : Settings} (hcounts : R.Counts 0 settings) (withNatives : Bool) :
    R.Holds (Session.create settings withNatives) := by
  -- the natives are set one after the other, and none of them has a body
  have hnatives : ∀ (natives : List (String × Native)) {s : Session}, R.Holds s →
      R.Holds (natives.foldl (fun session first => session.addNative first.1 first.2) s) := by
    intro natives
    induction natives with
    | nil => exact fun hs => hs
    | cons first natives ih =>
      exact fun hs => ih ⟨hs.env.setGlobal trivial, hs.routines, hs.counts⟩
  have hempty : R.Holds { settings : Session } := by
    refine ⟨?_, by simp, hcounts⟩
    -- there is only the root to begin with, and nothing is bound in it
    intro scope hscope name b hb
    obtain rfl := List.mem_singleton.mp hscope
    cases hb
  unfold Session.create
  split
  · exact hnatives _ (hempty.setGlobal _ trivial)
  · exact hempty.setGlobal _ trivial

end Contract.Holds

namespace Eval.Meets

variable {Q : α → Prop}

/-- A scope of its own. -/
theorem inScope {x y : Eval α} (h : Meets R x y Q) :
    Meets R (Eval.inScope x) (Eval.inScope y) Q := by
  intro s hs
  -- the scope is put on and taken off around both
  have hends := h _ hs.push
  show R.Ends Q (Eval.afterwards x _ _) (Eval.afterwards y _ _)
  unfold Eval.afterwards
  generalize x { s with env := s.env.push } = r at hends
  generalize y { s with env := s.env.push } = r' at hends
  cases hends with
  | ok ha ht => exact .ok ha ht.pop
  | fault hf ht => exact .fault hf ht.pop
  | starved ht => exact .starved ht.pop

private theorem updateEnv {name got : String} {r : Session → Except Refusal Environment}
    (h : ∀ s env, R.Holds s → r s = .ok env → env.All (Value.Has R.Body)) :
    Meets R (get >>= fun s => Eval.updateEnv name got (r s))
      (get >>= fun s => Eval.updateEnv name got (r s)) fun _ => True := by
  intro s hs
  show R.Ends _ (Eval.updateEnv name got (r s) s) (Eval.updateEnv name got (r s) s)
  cases hr : r s with
  | ok env => exact .ok trivial ⟨h s env hs hr, hs.routines, hs.counts⟩
  | error refusal => exact Meets.raise (by cases refusal <;> rfl) s hs

theorem define {name : String} {binding : Variable} (hvalue : binding.value.Has R.Body) :
    Meets R (Eval.define name binding) (Eval.define name binding) fun _ => True :=
  updateEnv fun _ _ hs => hs.env.of_define hvalue

theorem assign {name : String} {value : Value} (hvalue : value.Has R.Body) :
    Meets R (Eval.assign name value) (Eval.assign name value) fun _ => True :=
  updateEnv fun _ _ hs => hs.env.of_assign hvalue

theorem step {name : String} {binding : Variable} (hvalue : binding.value.Has R.Body)
    (increment : Bool) :
    Meets R (Eval.step name binding increment) (Eval.step name binding increment)
      (Value.Has R.Body) := by
  unfold Eval.step
  -- final variables, what is no number, and overflows end in a fault before anything is written
  split
  · exact .raise rfl
  · split
    · exact .raise rfl
    · split
      · exact .raise rfl
      · exact .bind (.assign trivial) fun _ _ => .pure hvalue

theorem declareFunction {name : String} {parameters : List Parameter} {returns : Option Ty}
    {body : List Token} (hbody : R.Body body) :
    Meets R (Eval.declareFunction name parameters returns body)
      (Eval.declareFunction name parameters returns body) fun _ => True := by
  refine .getting fun s hs => .bind (.modifying fun t ht => ?_) fun _ _ => .define hbody
  exact ⟨ht.env, ht.routines, ht.counts⟩

theorem bindParameters {parameters : List Parameter} {arguments : List Value}
    (harguments : ∀ v ∈ arguments, v.Has R.Body) :
    Meets R (Eval.bindParameters parameters arguments) (Eval.bindParameters parameters arguments)
      fun _ => True := by
  induction parameters generalizing arguments with
  | nil => exact .pure trivial
  | cons parameter parameters ih =>
    cases arguments with
    | nil => exact .pure trivial
    | cons argument arguments =>
      obtain ⟨hargument, harguments⟩ := List.forall_mem_cons.mp harguments
      exact .bind (.define hargument) fun _ _ => ih harguments

theorem native {routine : Native} {arguments : List Value}
    (harguments : ∀ v ∈ arguments, v.Has R.Body) :
    Meets R (routine.run arguments) (routine.run arguments) (Value.Has R.Body) := by
  -- natives of the language answer with nothing, or refuse for a cause of their own
  cases routine with
  | print | println =>
    exact .bind (.modifying fun _ hs => hs.print _) fun _ _ => .pure trivial
  | checkNotNull =>
    simp only [Native.run]
    split
    · exact .raise rfl
    · exact .raise rfl
    · exact .pure trivial
  | checkArgument =>
    simp only [Native.run]
    split
    · exact .raise rfl
    · exact .pure trivial
    · exact .raise rfl
    · exact .raise rfl
  | host slot =>
    refine .getting fun s hs => ?_
    split
    · rename_i routine hroutine
      -- of the routines of the host nothing is known but what the contract asks of them
      have hhosts := hs.routines routine (Array.mem_of_getElem? hroutine)
      cases hresult : routine arguments with
      | ok value => exact .pure (R.hosted hhosts harguments hresult)
      | error fault =>
        obtain ⟨hraised, hsame⟩ := R.refused hhosts harguments hresult
        exact .throw hraised hsame
    · exact .pure trivial

/-- The check of arguments fails for ordinary causes only. -/
theorem check (function : Callable) (arguments : List Value) :
    Meets R (Eval.orRaise (function.check arguments)) (Eval.orRaise (function.check arguments))
      fun _ => True := by
  refine .orRaise (fun _ _ => trivial) fun cause hcause => ?_
  -- types are checked argument by argument, and all that fails is a mismatch
  have htypes : ∀ (parameters : List Parameter) (arguments : List Value),
      checkTypes parameters arguments = .error cause → cause.isOrdinary = true := by
    intro parameters
    induction parameters with
    | nil => intro arguments hcheck; cases hcheck
    | cons parameter parameters ih =>
      intro arguments hcheck
      cases arguments with
      | nil => cases hcheck
      | cons argument arguments =>
        simp only [checkTypes] at hcheck
        -- a parameter with a type is checked, one without is not
        split at hcheck
        · split at hcheck
          · exact ih arguments hcheck
          · cases hcheck
            rfl
        · exact ih arguments hcheck
  unfold Callable.check at hcause
  split at hcause
  · exact htypes _ _ hcause
  · cases hcause
    rfl

end Eval.Meets

/-! ### Scans -/

namespace Scan

/-- A search ends with an answer. -/
private theorem exists_through (done : Nat → Kind → Bool) (steps depth : Nat) (c : Cursor) :
    ∃ found c', through done steps depth c = .ok found c' := by
  -- along the tokens, with a step for each of them
  induction steps generalizing depth c with
  | zero => exact ⟨false, c, rfl⟩
  | succ steps ih =>
    cases hnext : c.next? with
    | none => exact ⟨false, c, through_of_none hnext done _ _⟩
    | some p =>
      obtain ⟨token, c'⟩ := p
      rw [through_of_next hnext]
      split
      · exact ⟨true, c', rfl⟩
      · exact ih _ c'

/-- A block that is not found lacks its closing brace. The complaint is about the token behind the
cursor, which is the opening brace. -/
theorem fault_of_block {c c' : Cursor} {fault : Fault} (h : Scan.block c = .error fault c') :
    ∃ stop, fault = .malformed .unclosedBlock ((c.seen.head?.map (·.span)).getD stop) := by
  -- the search ends somewhere, and only if it finds no brace there is a fault
  obtain ⟨found, c₁, hthrough⟩ := exists_through
    (fun depth kind => depth == 0 && kind == .symbol .rightBrace) c.rest.length 0 c
  unfold Scan.block at h
  rw [get_bind] at h
  simp only at h
  rw [bind_of_ok hthrough] at h
  cases found with
  | true => cases h
  | false =>
    cases h
    exact ⟨_, rfl⟩

/-- The scan ends as `Q` says, or with a fault that may arise. -/
def Meets (R : Contract) (x : Scan α) (c : Cursor) (Q : α → Cursor → Prop) : Prop :=
  match x c with
  | .ok a c' => Q a c'
  | .error f _ => R.Raised f ∧ f.unwound = []

namespace Meets

variable {c : Cursor} {P Q : α → Cursor → Prop}

theorem mono {x : Scan α} (h : Meets R x c P) (hPQ : ∀ a c', P a c' → Q a c') : Meets R x c Q := by
  unfold Meets at h ⊢
  split at h
  · exact hPQ _ _ h
  · exact h

protected theorem pure {a : α} (h : Q a c) : Meets R (pure a) c Q := h

/-- A fault for an ordinary cause. -/
theorem raise {complaint : Malformed} {span : Span}
    (h : (Cause.malformed complaint).isOrdinary = true) (hplace : R.Place span) :
    Meets R (throw (.malformed complaint span) : Scan α) c Q :=
  ⟨R.ordinary h (by simpa using hplace), rfl⟩

/-- Scans in sequence. -/
protected theorem bind {x : Scan α} {f : α → Scan β} {Q : β → Cursor → Prop} (hx : Meets R x c P)
    (hf : ∀ a c', P a c' → Meets R (f a) c' Q) : Meets R (x >>= f) c Q := by
  unfold Meets at hx
  -- the second scan begins where the first one ended, if it did
  cases hxc : x c with
  | ok a c' =>
    rw [hxc] at hx
    have hfa := hf a c' hx
    unfold Meets at hfa ⊢
    rw [bind_of_ok hxc]
    exact hfa
  | error f c' =>
    rw [hxc] at hx
    unfold Meets
    rw [bind_of_error hxc]
    exact hx

/-- A look at the cursor. -/
theorem getting {f : Cursor → Scan α} (h : Meets R (f c) c Q) : Meets R (get >>= f) c Q := h

/-- Stepping over a token of one kind, if it is next. -/
theorem accept {kind : Kind} {f : Bool → Scan β} {Q : β → Cursor → Prop}
    (htrue : ∀ c', Reads c [kind] c' → Meets R (f true) c' Q)
    (hfalse : Meets R (f false) c Q) : Meets R (Scan.accept kind >>= f) c Q := by
  unfold Meets
  by_cases hc : c.ahead = some kind
  · obtain ⟨c', hreads⟩ := Cursor.reads_of_ahead hc
    rw [bind_of_ok (accept_of_reads hreads)]
    exact htrue c' hreads
  · rw [bind_of_ok (accept_of_ne hc)]
    exact hfalse

section

variable (h : R.Ahead 0 c)

include h

/-- Stepping over a token that has to be there. -/
theorem expecting {what : String} {select : Token → Option α} :
    Meets R (Scan.expecting what select) c
      fun a c' => ∃ token, Reads c [token.kind] c' ∧ select token = some a := by
  have hhere : ∀ place ∈ some c.here, R.Place place := by simpa using R.here h (.nil c)
  unfold Meets
  -- the end of the tokens, a token that is refused, or one that is taken
  cases hnext : c.next? with
  | none =>
    rw [expecting_of_none hnext]
    exact ⟨R.ordinary rfl hhere, rfl⟩
  | some p =>
    obtain ⟨token, c'⟩ := p
    cases hselect : select token with
    | none =>
      rw [expecting_of_refused hnext hselect]
      exact ⟨R.ordinary rfl hhere, rfl⟩
    | some a =>
      rw [expecting_of_some hnext hselect]
      exact ⟨token, .one hnext, hselect⟩

theorem expect {kind : Kind} {what : String} :
    Meets R (Scan.expect kind what) c fun _ c' => Reads c [kind] c' := by
  refine (expecting h).mono fun token c' => ?_
  rintro ⟨token', hreads, hselect⟩
  by_cases hkind : token'.kind = kind
  · exact hkind ▸ hreads
  · rw [if_neg hkind] at hselect
    cases hselect

theorem identifier (what : String) :
    Meets R (Scan.identifier what) c fun _ c' => R.Ahead 0 c' := by
  refine (expecting h).mono fun name c' => ?_
  rintro ⟨⟨kind, span⟩, hreads, hselect⟩
  cases kind with
  | ident => exact R.plain h hreads (by simp) (by simp)
  | _ => cases hselect

private theorem typeName : Meets R Scan.typeName c fun _ c' => R.Ahead 0 c' := by
  refine getting (.bind (identifier h _) fun name c' hc' => ?_)
  split
  · exact .pure hc'
  · split
    · exact .pure hc'
    · exact .raise rfl (R.here h (.nil c))

theorem typed : Meets R Scan.annotation c fun _ c' => R.Ahead 0 c' :=
  .accept (fun _ hreads => typeName (R.plain h hreads (by simp) (by simp))) (.pure h)

omit h in
private theorem moreParameters (steps : Nat) {c : Cursor} (h : R.Ahead 0 c) :
    Meets R (Scan.moreParameters steps) c fun _ c' => R.Ahead 0 c' := by
  induction steps generalizing c with
  | zero => exact .pure h
  | succ steps ih =>
    refine .bind (identifier h _) fun name c₁ hc₁ => .bind (typed hc₁) fun type c₂ hc₂ => ?_
    refine .accept (fun c₃ hreads => .pure (R.plain hc₂ hreads (by simp) (by simp))) ?_
    refine .bind (expect hc₂) fun _ c₃ hreads => ?_
    exact .bind (ih (R.plain hc₂ hreads (by simp) (by simp))) fun _ _ hc₄ => .pure hc₄

theorem parameters : Meets R Scan.parameters c fun _ c' => R.Ahead 0 c' := by
  refine .accept (fun c₁ hreads => .pure (R.plain h hreads (by simp) (by simp))) ?_
  exact getting (moreParameters _ h)

/-- The comments ahead. -/
theorem comments : Meets R Scan.comments c fun _ c' => R.Ahead 0 c' := by
  refine getting ?_
  cases hunclosed : c.unclosed? with
  | some mark => exact ⟨R.unclosedComment h hunclosed, rfl⟩
  | none => exact R.settled h hunclosed

omit h in
/-- The condition of a loop or an arm, through the opening brace. -/
theorem untilBrace (h : R.Ahead 0 c) (what : String) :
    Meets R (Scan.untilBrace what) c
      fun condition c' => Scan.untilBrace what c = .ok condition c' ∧ R.Ahead 1 c' := by
  unfold Meets
  cases hscan : Scan.untilBrace what c with
  | ok condition c' => exact ⟨rfl, R.header h hscan⟩
  | error fault c' =>
    -- it can only be that there is no brace
    obtain ⟨found, c₁, hthrough⟩ :=
      exists_through (fun _ kind => kind == .symbol .leftBrace) c.rest.length 0 c
    unfold Scan.untilBrace at hscan
    rw [get_bind, bind_of_ok hthrough] at hscan
    cases found with
    | true => cases hscan
    | false =>
      cases hscan
      obtain ⟨kinds, hreads⟩ := Moves.through _ _ _ hthrough
      exact ⟨R.ordinary rfl (by simpa using R.here h hreads), rfl⟩

omit h in
/-- A block, whose opening brace is behind the cursor. -/
theorem block (h : R.Ahead 1 c) :
    Meets R Scan.block c fun body c' => R.Body body ∧ R.Block body ∧ R.Ahead 0 c' := by
  unfold Meets
  cases hscan : Scan.block c with
  | ok body c' => exact R.block h hscan
  | error fault c' =>
    obtain ⟨stop, rfl⟩ := fault_of_block hscan
    exact ⟨R.unclosedBlock h hscan, rfl⟩

omit h in
theorem skipBlock (h : R.Ahead 1 c) :
    Meets R Scan.skipBlock c fun _ c' => R.Ahead 0 c' :=
  .bind (block h) fun _ _ hc' => .pure hc'.2.2

omit h in
private theorem skipMoreArms (steps : Nat) {c : Cursor} (h : R.Ahead 0 c) :
    Meets R (Scan.skipMoreArms steps) c fun _ c' => R.Ahead 0 c' := by
  induction steps generalizing c with
  | zero => exact .pure h
  | succ steps ih =>
    refine .accept (fun c₁ helse => ?_) (.pure h)
    have hc₁ := R.plain h helse (by simp) (by simp)
    refine .accept (fun c₂ hif => ?_) ?_
    · refine .bind (untilBrace (R.plain hc₁ hif (by simp) (by simp)) _) fun _ c₃ hc₃ => ?_
      exact .bind (skipBlock hc₃.2) fun _ _ hc₄ => ih hc₄
    · exact .bind (expect hc₁) fun _ c₂ hbrace => skipBlock (R.opened hc₁ hbrace)

omit h in
/-- The arms behind the one that was taken. -/
theorem skipArms (h : R.Ahead 0 c) :
    Meets R Scan.skipArms c fun _ c' => R.Ahead 0 c' :=
  getting (skipMoreArms _ h)

end

end Meets

end Scan

/-! ### Readings -/

namespace Reading

/-- From this cursor, the readings end as the contract says, the first one with a result and a cursor
as `Q` says if it has one. -/
def Meets (R : Contract) (x y : Reading α) (c : Cursor) (Q : α → Cursor → Prop) : Prop :=
  Eval.Meets R (x c) (y c) fun p => Q p.1 p.2

namespace Meets

variable {x y : Reading α} {c : Cursor} {P Q : α → Cursor → Prop}

theorem mono (h : Meets R x y c P) (hPQ : ∀ a c', P a c' → Q a c') : Meets R x y c Q :=
  Eval.Meets.mono h fun p => hPQ p.1 p.2

protected theorem pure {a : α} (h : Q a c) : Meets R (pure a) (pure a) c Q := Eval.Meets.pure h

theorem raiseAt {span : Span} {cause : Cause} (h : cause.isOrdinary = true)
    (hplace : R.Place span) :
    Meets R (Reading.raiseAt span cause : Reading α) (Reading.raiseAt span cause) c Q :=
  Eval.Meets.throw (R.ordinary h (by simpa using hplace)) (R.change_of_nil rfl)

/-- Readings in sequence. -/
protected theorem bind {f g : α → Reading β} {Q : β → Cursor → Prop} (hxy : Meets R x y c P)
    (hfg : ∀ a c', P a c' → Meets R (f a) (g a) c' Q) : Meets R (x >>= f) (y >>= g) c Q :=
  Eval.Meets.bind hxy fun p => hfg p.1 p.2

/-- Where the first reading lands is where it ends. -/
theorem landing (h : Meets R x y c P) (hx : Lands x c Q) :
    Meets R x y c fun a c' => P a c' ∧ Q a c' := by
  intro s hs
  have hends := h s hs
  -- both hold of the same end, where there is one
  cases hxs : x c s with
  | ok p t =>
    rw [hxs] at hends
    generalize y c s = r at hends ⊢
    cases hends with
    | ok hP ht => exact .ok ⟨hP, hx s p.1 p.2 t hxs⟩ ht
  | error halt t =>
    rw [hxs] at hends
    generalize y c s = r at hends ⊢
    cases hends with
    | fault hf ht => exact .fault hf ht
    | starved ht => exact .starved ht

theorem map {f : α → β} {Q : β → Cursor → Prop} (h : Meets R x y c fun a c' => Q (f a) c') :
    Meets R (f <$> x) (f <$> y) c Q :=
  Eval.Meets.bind h fun _ h => .pure h

theorem locate {span : Span} (hplace : R.Place span) (h : Meets R x y c Q) :
    Meets R (Reading.locate span x) (Reading.locate span y) c Q :=
  Eval.Meets.locate hplace h

/-- An evaluation that reads nothing. -/
theorem lift {x y : Eval α} {P : α → Prop} (h : Eval.Meets R x y P) :
    Meets R (liftM x : Reading α) (liftM y) c fun a c' => P a ∧ c' = c :=
  Eval.Meets.bind h fun _ ha => .pure ⟨ha, rfl⟩

/-- A scan. -/
theorem scan {x : Scan α} (h : Scan.Meets R x c Q) :
    Meets R (Reading.scan x) (Reading.scan x) c Q := by
  intro s hs
  unfold Reading.scan
  unfold Scan.Meets at h
  cases hx : x c with
  | ok a c' =>
    rw [hx] at h
    exact .ok h hs
  | error f c' =>
    rw [hx] at h
    exact Eval.Meets.throw h.1 (R.change_of_nil h.2) s hs

/-- All of some tokens. -/
theorem onTokens {tokens : List Token} {Q : α → Prop}
    (h : Meets R x y (.start tokens) fun a _ => Q a) :
    Eval.Meets R (Reading.onTokens tokens x) (Reading.onTokens tokens y) Q :=
  Eval.Meets.bind h fun _ ha => .pure ha

theorem computed {span : Span} {result : Except Cause Value} {Q : Value → Cursor → Prop}
    (hplace : R.Place span) (hok : ∀ v, result = .ok v → Q v c)
    (herror : ∀ cause, result = .error cause → cause.isOrdinary = true) :
    Meets R (Reading.computed span result) (Reading.computed span result) c Q := by
  cases result with
  | ok v => exact .pure (hok v rfl)
  | error cause => exact .raiseAt (herror cause rfl) hplace

/-! ### What follows a step -/

section

variable {f g : α → Reading β} {Q : β → Cursor → Prop}

/-- A look at the cursor. -/
theorem getting {f g : Cursor → Reading β} (h : Meets R (f c) (g c) c Q) :
    Meets R (get >>= f) (get >>= g) c Q := h

/-- A look at the session. -/
theorem session {f g : Session → Reading β} (h : ∀ s, R.Holds s → Meets R (f s) (g s) c Q) :
    Meets R (getThe Session >>= f) (getThe Session >>= g) c Q :=
  fun s hs => h s hs s hs

theorem peek {f g : Option Token → Reading β} (h : Meets R (f c.peek) (g c.peek) c Q) :
    Meets R (Reading.peek >>= f) (Reading.peek >>= g) c Q := h

theorem peekKind {f g : Option Kind → Reading β} (h : Meets R (f c.ahead) (g c.ahead) c Q) :
    Meets R (Reading.peekKind >>= f) (Reading.peekKind >>= g) c Q := by
  rw [← Cursor.peek_map_kind] at h
  exact h

theorem here {f g : Span → Reading β} (h : Meets R (f c.here) (g c.here) c Q) :
    Meets R (Reading.here >>= f) (Reading.here >>= g) c Q := h

theorem next {f g : Option Token → Reading β}
    (hnone : c.next? = none → Meets R (f none) (g none) c Q)
    (hsome : ∀ token c', c.next? = some (token, c') → Meets R (f (some token)) (g (some token)) c' Q) :
    Meets R (Reading.next >>= f) (Reading.next >>= g) c Q := by
  refine .bind (P := fun token? c' => Meets R (f token?) (g token?) c' Q) (.scan ?_) fun _ _ h => h
  unfold Scan.Meets
  cases hnext : c.next? with
  | none =>
    rw [Scan.next_of_none hnext]
    exact hnone hnext
  | some p =>
    rw [Scan.next_of_some hnext]
    exact hsome _ _ hnext

/-- A step over a token whose kind is known. -/
theorem step {f g : Option Token → Reading β} {kind : Kind} (hahead : c.ahead = some kind)
    (h : ∀ token c', Reads c [kind] c' → Meets R (f (some token)) (g (some token)) c' Q) :
    Meets R (Reading.next >>= f) (Reading.next >>= g) c Q := by
  refine next (fun hnone => ?_) fun token c' hnext => ?_
  · rw [Cursor.ahead, hnone] at hahead
    cases hahead
  · rw [Cursor.ahead, hnext] at hahead
    cases hahead
    exact h token c' (.one hnext)

theorem accept {kind : Kind} {f g : Bool → Reading β}
    (htrue : ∀ c', Reads c [kind] c' → Meets R (f true) (g true) c' Q)
    (hfalse : Meets R (f false) (g false) c Q) :
    Meets R (Reading.accept kind >>= f) (Reading.accept kind >>= g) c Q := by
  refine .bind (P := fun found c' => Meets R (f found) (g found) c' Q) (.scan ?_) fun _ _ h => h
  unfold Scan.Meets
  by_cases hc : c.ahead = some kind
  · obtain ⟨c', hreads⟩ := Cursor.reads_of_ahead hc
    rw [Scan.accept_of_reads hreads]
    exact htrue c' hreads
  · rw [Scan.accept_of_ne hc]
    exact hfalse

theorem expect {kind : Kind} {what : String} {f g : Unit → Reading β} (hc : R.Ahead 0 c)
    (h : ∀ c', Reads c [kind] c' → Meets R (f ()) (g ()) c' Q) :
    Meets R (Reading.expect kind what >>= f) (Reading.expect kind what >>= g) c Q := by
  refine .bind (P := fun _ c' => Reads c [kind] c') ?_ fun _ c' hreads => h c' hreads
  exact .bind (.scan (Scan.Meets.expect hc)) fun _ _ hreads => .pure hreads

theorem operatorAhead {tier : Tier} {f g : Option (BinaryOp × Span) → Reading β}
    (hc : R.Ahead 0 c) (hnone : Meets R (f none) (g none) c Q)
    (hsome : ∀ op span, c.ahead = some (.symbol op.mark) → R.Place span →
      Meets R (f (some (op, span))) (g (some (op, span))) c Q) :
    Meets R (Reading.operatorAhead tier >>= f) (Reading.operatorAhead tier >>= g) c Q := by
  unfold Reading.operatorAhead
  -- only the token in front is looked at
  simp only [bind_assoc]
  refine peek ?_
  have hahead := c.peek_map_kind
  cases hpeek : c.peek with
  | none => exact hnone
  | some token =>
    rw [hpeek] at hahead
    simp only [pure_bind]
    -- it may be no operator, or none of this tier
    cases hop : tier.operator? token.kind with
    | none => exact hnone
    | some op =>
      refine hsome op token.span ?_ (R.peeked hc hpeek)
      rw [← hahead, Option.map_some, (Tier.operator?_eq_some_iff.mp hop).1]

end

end Meets

end Reading

end Tern
