import Tern.Evaluation.Run
import Tern.Proofs.Scopes

/-!
# What every evaluation keeps

Some things hold between the session before an evaluation and the session after it, however the
evaluation ends and whatever it evaluates. A `Discipline` is such a relation together with the
reasons why single steps keep it; that evaluations of all phrases keep it follows rule by rule.

Statements may do more to a session than expressions: they declare variables in the innermost
scope. So a discipline has a relation for every `Stage` of evaluation.

Two evaluators are followed side by side. A discipline may be about some sessions only, and in
those the second evaluator has to do what the first one does. With the same evaluator twice that
says nothing; with an evaluator that is written differently it says that the difference never shows.

## Key results

- `Eval.Keeps.bind`, `Eval.Keeps.inScope`, `Eval.KeepsAt.inCall`: the combinators keep a discipline
- `Orderly.rule`: so do the rules of evaluation, if the phrases inside do
- `Phrase.keeps`: evaluation of phrases keeps every discipline
- `Execution.keeps`: so does everything else that an interpreter can be asked to execute
- `Discipline.nesting`: scopes and calls are left as they were entered
-/

namespace Tern

/-- How much an evaluation may do. -/
inductive Stage where
  /-- Expressions declare nothing. -/
  | expression
  /-- A statement may declare something in the innermost scope. -/
  | statement
  /-- Statements in a row, among which a `return` may stand. -/
  | statements
  deriving DecidableEq, Repr

/-- The stage of a phrase. Blocks have scopes of their own, so to the scopes around it a conditional
does no more than an expression. -/
def Phrase.stage : Phrase α → Stage
  | .statements _ => .statements
  | _ => .expression

/-- What an interpreter can be asked to execute. -/
inductive Execution : Type → Type where
  /-- The expression ahead. -/
  | expression (c : Cursor) : Execution (Value × Cursor)
  /-- The statement ahead, which is offered to all constructs. -/
  | dispatch (c : Cursor) : Execution (Outcome × Cursor)
  /-- All statements ahead. -/
  | statements (paced : Bool) (c : Cursor) : Execution (Option Value × Cursor)
  /-- These tokens, in a scope of their own. -/
  | block (tokens : List Token) : Execution (Option Value)
  /-- A function, written in the language or native. -/
  | call (function : Callable) (arguments : List Value) : Execution Value

namespace Execution

/-- Whether the execution may declare something in the scope that is innermost at its start:
statements may, all others have scopes of their own. -/
def stage : Execution α → Stage
  | expression _ | block _ | call _ _ => .expression
  | dispatch _ => .statement
  | statements _ _ => .statements

/-- Executes with an evaluator for the phrases inside; `rounds` bounds a `while` loop that is the
statement ahead. -/
def eval (self : Evaluator) (rounds : Nat) : Execution α → Eval α
  | expression c => self .expression c
  | dispatch c => Reading.firstOf self rounds Construct.chain c
  | statements paced c => self (.statements paced) c
  | block tokens => Eval.block self tokens
  | call function arguments => Eval.call self function arguments

/-- Executes with this much fuel. -/
def run (fuel : Nat) (x : Execution α) : Eval α := x.eval (Phrase.run fuel) fuel

end Execution

/-- A relation between the sessions before and after, which single steps keep. -/
structure Discipline where
  /-- The sessions that the discipline is about. -/
  Fits : Stage → Session → Prop := fun _ _ => True
  /-- What holds between the sessions before and after. -/
  Rel : Stage → Session → Session → Prop
  refl : ∀ stage s, Rel stage s s
  trans : ∀ {stage s t u}, Rel stage s t → Rel stage t u → Rel stage s u
  /-- Expressions are allowed least. -/
  ofExpression : ∀ {stage s t}, Rel .expression s t → Rel stage s t
  /-- One statement is allowed no more than several. -/
  ofStatement : ∀ {s t}, Rel .statement s t → Rel .statements s t
  -- what a step can do to a session: bind a name, give it a value, or leave variables alone
  define : ∀ {s : Session} {name binding env}, s.env.define name binding = .ok env →
    Rel .statement s { s with env }
  assign : ∀ {s : Session} {name value env}, s.env.assign name value = .ok env →
    Rel .expression s { s with env }
  /-- What has happened and how many functions were made does not matter. -/
  outside : ∀ s transcript nextId, Rel .expression s { s with transcript, nextId }
  /-- A scope that was opened is dropped again. -/
  scope : ∀ {s t : Session}, Rel .statements { s with env := s.env.push } t →
    Rel .expression s { t with env := t.env.pop }
  /-- A call that was entered is left again. -/
  call : ∀ {s t : Session}, Rel .expression { s with callDepth := s.callDepth + 1 } t →
    Rel .expression s { t with callDepth := t.callDepth - 1 }
  /-- Sessions stay among those that the discipline is about. -/
  fits : ∀ {stage s t}, Rel stage s t → Fits stage s → Fits stage t := by
    exact fun _ _ => trivial
  -- within a stage, what fits the whole fits its parts
  fitsExpression : ∀ {stage s}, Fits stage s → Fits .expression s := by
    exact fun _ => trivial
  fitsStatement : ∀ {s}, Fits .statements s → Fits .statement s := by
    exact fun _ => trivial
  fitsScope : ∀ {s : Session}, Fits .expression s →
    Fits .statements { s with env := s.env.push } := by
      exact fun _ => trivial
  /-- A call is entered below the limit only. -/
  fitsCall : ∀ {s : Session}, s.callDepth < s.settings.maxCallDepth → Fits .expression s →
    Fits .expression { s with callDepth := s.callDepth + 1 } := by
      exact fun _ _ => trivial

/-- The session at the end. -/
def Eval.final : EStateM.Result Halt Session α → Session
  | .ok _ s => s
  | .error _ s => s

variable {D : Discipline} {stage : Stage}

namespace Eval

/-- From this session, if it is one that the discipline is about, both evaluations end in the same
way, and the discipline is kept, however they end. -/
def KeepsAt (D : Discipline) (stage : Stage) (s : Session) (x y : Eval α) : Prop :=
  D.Fits stage s → y s = x s ∧ D.Rel stage s (final (x s))

/-- The same from every session. -/
def Keeps (D : Discipline) (stage : Stage) (x y : Eval α) : Prop := ∀ s, KeepsAt D stage s x y

namespace KeepsAt

variable {s : Session} {x y : Eval α}

/-- Evaluations in sequence. -/
protected theorem bind {f g : α → Eval β} (hxy : KeepsAt D stage s x y)
    (hfg : ∀ a, Keeps D stage (f a) (g a)) : KeepsAt D stage s (x >>= f) (y >>= g) := by
  intro hfits
  obtain ⟨hsame, hfirst⟩ := hxy hfits
  simp only [Bind.bind, EStateM.bind]
  rw [hsame]
  -- the second evaluation starts only after a success, and then in a session that fits again
  cases hxs : x s with
  | ok a s' =>
    rw [hxs] at hfirst
    obtain ⟨hsame', hnext⟩ := hfg a s' (D.fits hfirst hfits)
    exact ⟨hsame', D.trans hfirst hnext⟩
  | error halt s' =>
    rw [hxs] at hfirst
    exact ⟨rfl, hfirst⟩

/-- Changes to faults. -/
theorem adaptFault (h : KeepsAt D stage s x y) (change : Halt → Halt) :
    KeepsAt D stage s (EStateM.adaptExcept change x) (EStateM.adaptExcept change y) := by
  intro hfits
  obtain ⟨hsame, hrel⟩ := h hfits
  simp only [EStateM.adaptExcept]
  rw [hsame]
  -- only the fault is written down in another way
  cases hxs : x s with
  | ok a s' =>
    rw [hxs] at hrel
    exact ⟨rfl, hrel⟩
  | error halt s' =>
    rw [hxs] at hrel
    exact ⟨rfl, hrel⟩

/-- The session at the end of an evaluation that changes it however it ends. -/
private theorem final_afterwards (x : Eval α) (change : Session → Session) (s : Session) :
    final (Eval.afterwards x change s) = change (final (x s)) := by
  unfold Eval.afterwards
  cases x s <;> rfl

/-- Changes to the session at the end. -/
private theorem afterwards {s₀ : Session} (h : KeepsAt D stage s x y) (hfits : D.Fits stage s)
    {change : Session → Session} {stage₀ : Stage}
    (hchange : ∀ t, D.Rel stage s t → D.Rel stage₀ s₀ (change t)) :
    Eval.afterwards y change s = Eval.afterwards x change s ∧
      D.Rel stage₀ s₀ (final (Eval.afterwards x change s)) := by
  obtain ⟨hsame, hrel⟩ := h hfits
  constructor
  · simp only [Eval.afterwards, hsame]
  · rw [final_afterwards]
    exact hchange _ hrel

/-- A call that is entered below the limit. -/
theorem inCall (name : String) (hlimit : s.callDepth < s.settings.maxCallDepth)
    (h : Keeps D .expression x y) :
    KeepsAt D .expression s (Eval.inCall name x) (Eval.inCall name y) := by
  intro hfits
  -- what is done to faults on the way out changes nothing of this
  refine adaptFault (x := fun s => Eval.afterwards x _ { s with callDepth := s.callDepth + 1 })
    (y := fun s => Eval.afterwards y _ { s with callDepth := s.callDepth + 1 }) ?_ _ hfits
  exact fun _ => (h _).afterwards (D.fitsCall hlimit hfits) fun _ => D.call

end KeepsAt

namespace Keeps

variable {x y : Eval α}

/-- What expressions may do is allowed at every stage. -/
theorem ofExpression (h : Keeps D .expression x y) : Keeps D stage x y := by
  intro s hfits
  obtain ⟨hsame, hrel⟩ := h s (D.fitsExpression hfits)
  exact ⟨hsame, D.ofExpression hrel⟩

/-- What one statement may do is allowed to several. -/
theorem ofStatement (h : Keeps D .statement x y) : Keeps D .statements x y := by
  intro s hfits
  obtain ⟨hsame, hrel⟩ := h s (D.fitsStatement hfits)
  exact ⟨hsame, D.ofStatement hrel⟩

protected theorem pure (a : α) : Keeps D stage (pure a) (pure a) :=
  fun s _ => ⟨rfl, D.refl stage s⟩

protected theorem throw (halt : Halt) : Keeps D stage (throw halt : Eval α) (throw halt) :=
  fun s _ => ⟨rfl, D.refl stage s⟩

/-- A look at the session. -/
theorem getting {f g : Session → Eval α} (h : ∀ s, KeepsAt D stage s (f s) (g s)) :
    Keeps D stage (MonadState.get >>= f) (MonadState.get >>= g) :=
  fun s => h s

/-- Evaluations in sequence. -/
protected theorem bind {f g : α → Eval β} (hxy : Keeps D stage x y)
    (hfg : ∀ a, Keeps D stage (f a) (g a)) : Keeps D stage (x >>= f) (y >>= g) :=
  fun s => (hxy s).bind hfg

theorem raise (cause : Cause) : Keeps D stage (Eval.raise cause : Eval α) (Eval.raise cause) :=
  .throw _

theorem orRaise (x : Except Cause α) : Keeps D stage (Eval.orRaise x) (Eval.orRaise x) := by
  cases x with
  | ok a => exact .pure a
  | error cause => exact .raise cause

/-- A scope of its own. -/
theorem inScope (h : Keeps D .statements x y) : Keeps D stage (Eval.inScope x) (Eval.inScope y) :=
  ofExpression fun _ hfits => (h _).afterwards (D.fitsScope hfits) fun _ => D.scope

/-- Loops. -/
theorem iterate {body body' : Nat → Eval (Option α)} {atEnd atEnd' : Eval α}
    (hbody : ∀ i, Keeps D stage (body i) (body' i)) (hend : Keeps D stage atEnd atEnd')
    (index count : Nat) :
    Keeps D stage (Eval.iterate body atEnd index count)
      (Eval.iterate body' atEnd' index count) := by
  induction count generalizing index with
  | zero => exact hend
  | succ count ih =>
    rw [iterate_succ, iterate_succ]
    refine .bind (hbody index) fun result => ?_
    cases result with
    | some a => exact .pure a
    | none => exact ih (index + 1)

/-! ### Single steps -/

private theorem updateEnv {s : Session} {name got : String} {x : Except Refusal Environment}
    (h : ∀ env, x = .ok env → D.Rel stage s { s with env }) :
    D.Rel stage s (final (Eval.updateEnv name got x s)) := by
  cases x with
  | ok env => exact h env rfl
  | error refusal => exact D.refl stage s

theorem define (name : String) (binding : Variable) :
    Keeps D .statement (Eval.define name binding) (Eval.define name binding) :=
  fun _ _ => ⟨rfl, updateEnv fun _ => D.define⟩

theorem assign (name : String) (value : Value) :
    Keeps D stage (Eval.assign name value) (Eval.assign name value) :=
  ofExpression fun _ _ => ⟨rfl, updateEnv fun _ => D.assign⟩

theorem step (name : String) (binding : Variable) (increment : Bool) :
    Keeps D stage (Eval.step name binding increment) (Eval.step name binding increment) := by
  unfold Eval.step
  split
  · exact .raise _
  · split
    · exact .raise _
    · split
      · exact .raise _
      · exact .bind (.assign name _) fun _ => .pure _

/-- A change to the session that does not matter. -/
private theorem changing {f : Session → Session} (h : ∀ s, D.Rel .expression s (f s)) :
    Keeps D stage (modify f : Eval Unit) (modify f) :=
  ofExpression fun s _ => ⟨rfl, h s⟩

theorem pace : Keeps D stage (modify Session.pace : Eval Unit) (modify Session.pace) := by
  refine changing fun s => ?_
  unfold Session.pace
  split
  · split
    · exact D.outside s _ _
    · exact D.refl _ s
  · exact D.refl _ s

theorem print (text : String) :
    Keeps D stage (modify (·.print text) : Eval Unit) (modify (·.print text)) := by
  refine changing fun s => ?_
  unfold Session.print
  split
  · exact D.refl _ s
  · exact D.outside s _ _

theorem declareFunction (name : String) (parameters : List Parameter) (returns : Option Ty)
    (body : List Token) :
    Keeps D .statement (Eval.declareFunction name parameters returns body)
      (Eval.declareFunction name parameters returns body) :=
  .getting fun _ => KeepsAt.bind (changing (fun t => D.outside t _ _) _) fun _ => .define _ _

theorem bindParameters (parameters : List Parameter) (arguments : List Value) :
    Keeps D .statement (Eval.bindParameters parameters arguments)
      (Eval.bindParameters parameters arguments) := by
  induction parameters generalizing arguments with
  | nil => exact .pure ()
  | cons parameter parameters ih =>
    cases arguments with
    | nil => exact .pure ()
    | cons argument arguments => exact .bind (.define _ _) fun _ => ih arguments

theorem native (routine : Native) (arguments : List Value) :
    Keeps D stage (routine.run arguments) (routine.run arguments) := by
  -- natives print or refuse; of the routines of the host only the answer is seen
  cases routine with
  | print | println => exact .bind (.print _) fun _ => .pure _
  | checkNotNull =>
    simp only [Native.run]
    split
    · exact .raise _
    · exact .raise _
    · exact .pure _
  | checkArgument =>
    simp only [Native.run]
    split
    · exact .raise _
    · exact .pure _
    · exact .raise _
    · exact .raise _
  | host slot =>
    refine .getting fun s => ?_
    split
    · rename_i routine _
      cases routine arguments with
      | ok value => exact Keeps.pure value s
      | error fault => exact Keeps.throw _ s
    · exact Keeps.pure _ s

end Keeps

end Eval

namespace Reading

/-- The readings keep the discipline, wherever they start and however they end. -/
def Keeps (D : Discipline) (stage : Stage) (x y : Reading α) : Prop :=
  ∀ c, Eval.Keeps D stage (x c) (y c)

namespace Keeps

variable {x y : Reading α}

/-- What expressions may do is allowed at every stage. -/
theorem ofExpression (h : Keeps D .expression x y) : Keeps D stage x y :=
  fun c => (h c).ofExpression

/-- What one statement may do is allowed to several. -/
theorem ofStatement (h : Keeps D .statement x y) : Keeps D .statements x y :=
  fun c => (h c).ofStatement

protected theorem pure (a : α) : Keeps D stage (pure a) (pure a) := fun c => .pure (a, c)

/-- Readings in sequence. -/
protected theorem bind {f g : α → Reading β} (hxy : Keeps D stage x y)
    (hfg : ∀ a, Keeps D stage (f a) (g a)) : Keeps D stage (x >>= f) (y >>= g) :=
  fun c => .bind (hxy c) fun p => hfg p.1 p.2

protected theorem map (f : α → β) (hxy : Keeps D stage x y) :
    Keeps D stage (f <$> x) (f <$> y) :=
  fun c => .bind (hxy c) fun p => .pure (f p.1, p.2)

protected theorem get :
    Keeps D stage (MonadState.get : Reading Cursor) (MonadState.get : Reading Cursor) :=
  fun c => .pure (c, c)

/-- A look at the session. -/
theorem session :
    Keeps D stage (getThe Session : Reading Session) (getThe Session : Reading Session) :=
  fun _ s _ => ⟨rfl, D.refl stage s⟩

theorem raiseAt (span : Span) (cause : Cause) :
    Keeps D stage (Reading.raiseAt span cause : Reading α) (Reading.raiseAt span cause) :=
  fun _ => .throw _

theorem locate (span : Span) (hxy : Keeps D stage x y) :
    Keeps D stage (Reading.locate span x) (Reading.locate span y) :=
  fun c s => (hxy c s).adaptFault _

/-- An evaluation that reads nothing. -/
theorem lift {x y : Eval α} (hxy : Eval.Keeps D stage x y) :
    Keeps D stage (liftM x) (liftM y) :=
  fun c => .bind hxy fun a => .pure (a, c)

theorem scan (x : Scan α) : Keeps D stage (Reading.scan x) (Reading.scan x) := by
  intro c s _
  refine ⟨rfl, ?_⟩
  unfold Reading.scan
  cases x c <;> exact D.refl stage s

theorem peek : Keeps D stage Reading.peek Reading.peek := .bind .get fun _ => .pure _

theorem here : Keeps D stage Reading.here Reading.here := .bind .get fun _ => .pure _

theorem next : Keeps D stage Reading.next Reading.next := scan _

theorem accept (kind : Kind) : Keeps D stage (Reading.accept kind) (Reading.accept kind) := scan _

theorem expect (kind : Kind) (what : String) :
    Keeps D stage (Reading.expect kind what) (Reading.expect kind what) :=
  .bind (scan _) fun _ => .pure _

theorem onTokens (tokens : List Token) (hxy : Keeps D stage x y) :
    Eval.Keeps D stage (Reading.onTokens tokens x) (Reading.onTokens tokens y) :=
  .bind (hxy _) fun _ => .pure _

theorem computed (span : Span) (result : Except Cause Value) :
    Keeps D stage (Reading.computed span result) (Reading.computed span result) := by
  cases result with
  | ok value => exact .pure value
  | error cause => exact .raiseAt span cause

theorem operatorAhead (tier : Tier) :
    Keeps D stage (Reading.operatorAhead tier) (Reading.operatorAhead tier) := by
  refine .bind .peek fun token? => ?_
  cases token? with
  | none => exact .pure _
  | some token => exact .pure _

theorem rightGrouped (tier : Tier) {operand operand' others others' : Reading Value}
    (hoperand : Keeps D stage operand operand') (hothers : Keeps D stage others others') :
    Keeps D stage (Reading.rightGrouped tier operand others)
      (Reading.rightGrouped tier operand' others') := by
  refine .bind hoperand fun left => .bind (.operatorAhead tier) fun found => ?_
  cases found with
  | none => exact .pure left
  | some found => exact .bind .next fun _ => .bind hothers fun _ => .computed _ _

end Keeps

end Reading

/-! ### Rules -/

/-- Offers a statement that begins with the token to the constructs, and goes on behind it. -/
def Reading.dispatched (self : Evaluator) (fuel : Nat) (token : Token) :
    Reading (Option Value) := do
  match ← locate token.span (firstOf self fuel Construct.chain) with
  | .declined => raiseAt token.span (.unknownToken token.kind.text)
  | .done => self (.statements true)
  | .returned value => return some value

/-- The evaluators keep the discipline. -/
def Orderly (D : Discipline) (self self' : Evaluator) : Prop :=
  ∀ {α} (phrase : Phrase α), Reading.Keeps D phrase.stage (self phrase) (self' phrase)

namespace Orderly

variable {self self' : Evaluator} (h : Orderly D self self')

include h

/-- An expression, wherever it stands. -/
theorem value : Reading.Keeps D stage (self .expression) (self' .expression) :=
  (h .expression).ofExpression

theorem body (tokens : List Token) :
    Eval.Keeps D .statements (Reading.onTokens tokens (self (.statements true)))
      (Reading.onTokens tokens (self' (.statements true))) :=
  Reading.Keeps.onTokens tokens (h (.statements true))

theorem block (tokens : List Token) :
    Eval.Keeps D stage (Eval.block self tokens) (Eval.block self' tokens) :=
  .inScope (h.body tokens)

theorem call (function : Callable) (arguments : List Value) :
    Eval.Keeps D stage (Eval.call self function arguments)
      (Eval.call self' function arguments) := by
  refine .ofExpression ?_
  unfold Eval.call
  split
  · exact .native _ _
  · exact .bind (.orRaise _) fun _ => .native _ _
  · rename_i tokens _
    refine .bind (.orRaise _) fun _ => .getting fun s => ?_
    -- the limit is compared with the depth in the very session that the call is entered in, so
    -- `KeepsAt` is needed here: about other sessions the comparison says nothing
    split
    · exact Eval.Keeps.raise _ s
    · rename_i hlimit
      have hscope : Eval.Keeps D .expression _ _ := .inScope (.bind
        (.ofStatement (.bindParameters function.parameters arguments)) fun _ => h.body tokens)
      exact (Eval.KeepsAt.inCall _ (Nat.lt_of_not_le hlimit) hscope).bind fun _ => .pure _

theorem named (name : String) (span : Span) :
    Reading.Keeps D .expression (Reading.named self name span)
      (Reading.named self' name span) := by
  refine .bind .session fun s => ?_
  split
  · exact .raiseAt _ _
  · refine .bind (.bind .get fun _ => .pure _) fun kind? => ?_
    -- what follows the name decides: a call, an assignment, `++`, `--`, or nothing of its own
    split
    -- a call, with or without arguments
    · split
      · refine .bind .next fun _ => .locate _ (.bind (.bind (.accept _) fun closed => ?_) fun _ =>
          .lift (h.call _ _))
        split
        · exact .pure _
        · exact h .arguments
      · exact .raiseAt _ _
    -- an assignment
    · split
      · exact .raiseAt _ _
      · exact .bind .next fun _ => .bind h.value fun _ =>
          .bind (.locate _ (.lift (.assign _ _))) fun _ => .pure _
    · exact .bind .next fun _ => .locate _ (.lift (.step _ _ _))
    · exact .bind .next fun _ => .locate _ (.lift (.step _ _ _))
    · exact .pure _

theorem primary :
    Reading.Keeps D .expression (Reading.primary self) (Reading.primary self') := by
  refine .bind .here fun span => .bind .next fun token? => ?_
  -- nothing but the evaluation of groups and names does anything to a session
  cases token? with
  | none => exact .raiseAt _ _
  | some token =>
    obtain ⟨kind, place⟩ := token
    cases kind with
    | symbol mark =>
      cases mark with
      | leftParen => exact .bind h.value fun _ => .bind (.expect _ _) fun _ => .pure _
      | _ => exact .raiseAt _ _
    | keyword word =>
      cases word with
      | trueKw | falseKw => exact .pure _
      | _ => exact .raiseAt _ _
    | str _ | number _ => exact .pure _
    | ident name => exact h.named _ _
    | unknown _ | lineComment _ => exact .raiseAt _ _

theorem unary : Reading.Keeps D .expression (Reading.unary self) (Reading.unary self') := by
  refine .bind .peek fun token? => ?_
  cases token? with
  | none => exact h.primary
  | some token =>
    simp only
    split
    · exact h.primary
    · exact .bind .next fun _ => .bind (h .unary) fun _ => .computed _ _

theorem multiplicative :
    Reading.Keeps D .expression (Reading.multiplicative self) (Reading.multiplicative self') :=
  .rightGrouped _ h.unary (h .multiplicative)

theorem additive :
    Reading.Keeps D .expression (Reading.additive self) (Reading.additive self') :=
  .rightGrouped _ h.multiplicative (h .additive)

theorem comparison :
    Reading.Keeps D .expression (Reading.comparison self) (Reading.comparison self') := by
  refine .bind h.additive fun left => .bind (.operatorAhead _) fun found => ?_
  cases found with
  | none => exact .pure left
  | some found =>
    refine .bind .next fun _ => .bind h.additive fun _ => .bind (.operatorAhead _) fun again => ?_
    cases again with
    | some again => exact .raiseAt _ _
    | none => exact .computed _ _

theorem logical :
    Reading.Keeps D .expression (Reading.logical self) (Reading.logical self') :=
  .rightGrouped _ h.comparison h.value

theorem arguments :
    Reading.Keeps D .expression (Reading.arguments self) (Reading.arguments self') := by
  refine .bind h.value fun first => .bind (.accept _) fun closed => ?_
  split
  · exact .pure _
  · exact .bind (.expect _ _) fun _ => .bind (h .arguments) fun _ => .pure _

omit h in
/-- A construct that begins with a keyword. -/
private theorem after (keyword : Keyword) {x y : Reading Outcome}
    (hxy : Reading.Keeps D stage x y) :
    Reading.Keeps D stage (Reading.after keyword x) (Reading.after keyword y) := by
  refine .bind (.accept _) fun accepted => ?_
  split
  · exact hxy
  · exact .pure _

theorem arms : Reading.Keeps D .expression (Reading.arms self) (Reading.arms self') := by
  refine .bind h.value fun condition => .bind (.expect _ _) fun _ => ?_
  -- the arms behind the one that is taken are skipped, which no session notices
  split
  -- the block of this arm
  · refine .bind (.scan _) fun body => .bind (.lift (h.block body)) fun returned => ?_
    cases returned with
    | some value => exact .pure _
    | none => exact .bind (.scan _) fun _ => .pure _
  -- the condition does not hold: another arm, a last block, or nothing
  · refine .bind (.scan _) fun _ => .bind (.accept _) fun accepted => ?_
    split
    · refine .bind (.accept _) fun accepted => ?_
      split
      · exact h .arms
      · exact .bind (.expect _ _) fun _ => .bind (.scan _) fun _ => .lift (h.block _)
    · exact .pure _

private theorem bound : Reading.Keeps D stage (Reading.bound self) (Reading.bound self') := by
  refine .bind .here fun span => .bind h.value fun value => ?_
  split
  · exact .pure _
  · exact .raiseAt _ _

private theorem whileRound (condition tokens : List Token) :
    Eval.Keeps D stage (Eval.whileRound self condition tokens)
      (Eval.whileRound self' condition tokens) := by
  refine .bind (Reading.Keeps.onTokens _ (.bind h.value fun _ => .bind .peek fun extra? => ?_))
    fun holds => ?_
  · cases extra? with
    | some extra => exact .raiseAt _ _
    | none => exact .pure _
  · split
    · exact .bind (h.block tokens) fun _ => .pure _
    · exact .pure _

private theorem rangeRound (name? : Option String) (tokens : List Token) (i : Number) :
    Eval.Keeps D stage (Eval.rangeRound self name? tokens i)
      (Eval.rangeRound self' name? tokens i) := by
  -- the variable of the loop is declared in the scope of the round, not around the loop
  refine .inScope ?_
  cases name? with
  | some name => exact .bind (.ofStatement (.define _ _)) fun _ => h.body tokens
  | none => exact h.body tokens

private theorem rounds (first limit : Number) (name? : Option String) :
    Reading.Keeps D stage
      (do
        Reading.expect (.symbol .leftBrace) "`\x7b` after range"
        let body ← Reading.scan Scan.block
        Eval.iterate (fun k => do
          return (← Eval.rangeRound self name? body (Int64.ofInt (first.toInt + k))).map
            Outcome.returned) (return .done) 0 (limit.toInt - first.toInt).toNat)
      (do
        Reading.expect (.symbol .leftBrace) "`\x7b` after range"
        let body ← Reading.scan Scan.block
        Eval.iterate (fun k => do
          return (← Eval.rangeRound self' name? body (Int64.ofInt (first.toInt + k))).map
            Outcome.returned) (return .done) 0 (limit.toInt - first.toInt).toNat) :=
  .bind (.expect _ _) fun _ => .bind (.scan _) fun body => .lift
    (.iterate (fun _ => .bind (h.rangeRound name? body _) fun _ => .pure _) (.pure _) _ _)

private theorem declared (isFinal : Bool) :
    Reading.Keeps D .statement (Reading.declared self isFinal)
      (Reading.declared self' isFinal) :=
  .bind .here fun _ => .bind (.scan _) fun _ => .bind (.scan _) fun _ =>
    .bind (.expect _ _) fun _ => .bind h.value fun _ =>
      .bind (.locate _ (.lift (.define _ _))) fun _ => .pure _

/-- Every construct. -/
theorem attempt (fuel : Nat) (construct : Construct) :
    Reading.Keeps D .statement (Reading.attempt self fuel construct)
      (Reading.attempt self' fuel construct) := by
  cases construct with
  -- comments do nothing to the session
  | comment =>
    refine .bind .get fun c => ?_
    split
    · exact .bind (.scan _) fun _ => .pure _
    · exact .bind (.scan _) fun _ => .pure _
    · exact .pure _
  | assertion =>
    refine after _ (.bind .get fun start => .bind h.value fun value => ?_)
    split
    · exact .pure _
    · exact .bind .get fun _ => .raiseAt _ _
  | counted =>
    refine after _ (.bind h.bound fun count => .bind (.expect _ _) fun _ => ?_)
    exact .bind (.scan _) fun body => .lift
      (.iterate (fun _ => .bind (h.block body) fun _ => .pure _) (.pure _) _ _)
  | whileLoop =>
    refine after _ (.bind (.scan _) fun condition => .bind (.scan _) fun body => ?_)
    -- at the end of the rounds there is no fuel left, which is one more way to end
    exact .lift (.iterate (fun _ => h.whileRound condition body) (.throw _) _ _)
  | range =>
    refine after _ (.bind h.bound fun first => .bind (.expect _ _) fun _ => ?_)
    refine .bind h.bound fun limit => .bind (.accept _) fun accepted => ?_
    cases accepted with
    | true => exact .bind (.map _ (.scan _)) fun name? => h.rounds first limit name?
    | false => exact h.rounds first limit none
  | conditional => exact after _ (.bind (h .arms).ofExpression fun _ => .pure _)
  | variableDeclaration =>
    refine .bind (.accept _) fun accepted => ?_
    split
    -- `var` and `val` bind a name alike
    · exact h.declared false
    · exact after _ (h.declared true)
  | functionDeclaration =>
    refine after _ (.bind .here fun span => .bind (.scan _) fun name => ?_)
    refine .bind (.expect _ _) fun _ => .bind (.scan _) fun parameters => ?_
    refine .bind (.scan _) fun returns => .bind (.expect _ _) fun _ => .bind (.scan _) fun body => ?_
    exact .bind (.locate _ (.lift (.declareFunction _ _ _ _))) fun _ => .pure _
  | expression =>
    -- an expression that is a statement leaves its value aside
    refine .bind .peek fun token? => ?_
    cases token? with
    | none => exact .pure _
    | some token =>
      simp only
      split
      · exact .bind h.value fun _ => .pure _
      · exact .pure _

theorem firstOf (fuel : Nat) (constructs : List Construct) :
    Reading.Keeps D .statement (Reading.firstOf self fuel constructs)
      (Reading.firstOf self' fuel constructs) := by
  induction constructs with
  | nil => exact .pure _
  | cons construct others ih =>
    refine .bind (h.attempt fuel construct) fun outcome => ?_
    cases outcome with
    | declined => exact ih
    | done => exact .pure _
    | returned value => exact .pure _

private theorem returned (span : Span) :
    Reading.Keeps D stage (Reading.returned self span) (Reading.returned self' span) := by
  refine .bind .session fun s => ?_
  split
  · exact .raiseAt _ _
  · refine .bind .next fun _ => .bind .get fun c => ?_
    split
    · exact .pure _
    · exact .locate _ h.value

private theorem dispatched (fuel : Nat) (token : Token) :
    Reading.Keeps D .statements (Reading.dispatched self fuel token)
      (Reading.dispatched self' fuel token) := by
  refine .bind (.locate _ (h.firstOf fuel _).ofStatement) fun outcome => ?_
  cases outcome with
  | declined => exact .raiseAt _ _
  | done => exact h (.statements true)
  | returned value => exact .pure _

/-- Statements. -/
theorem statements (fuel : Nat) (paced : Bool) :
    Reading.Keeps D .statements (Reading.statements self fuel paced)
      (Reading.statements self' fuel paced) := by
  refine .bind .get fun c => ?_
  cases c.front with
  | none => exact .pure _
  | some token =>
    simp only
    split
    · exact .raiseAt _ _
    · exact .map _ (h.returned _)
    · -- with and without a pause in front, the rest is the same
      cases paced with
      | true => exact .bind (.lift .pace) fun _ => h.dispatched fuel token
      | false => exact h.dispatched fuel token

/-- The rule for every phrase. -/
theorem rule (fuel : Nat) (phrase : Phrase α) :
    Reading.Keeps D phrase.stage (phrase.rule self fuel) (phrase.rule self' fuel) := by
  cases phrase with
  | expression => exact h.logical
  | additive => exact h.additive
  | multiplicative => exact h.multiplicative
  | unary => exact h.unary
  | arguments => exact h.arguments
  | arms => exact h.arms
  | statements paced => exact h.statements fuel paced

end Orderly

/-- Evaluation of phrases keeps every discipline. -/
theorem Phrase.keeps (D : Discipline) (fuel : Nat) : Orderly D (run fuel) (run fuel) := by
  induction fuel with
  | zero => exact fun _ _ => .throw _
  | succ fuel ih => exact fun phrase => ih.rule fuel phrase

/-! ### Executions -/

/-- All that can be executed. -/
theorem Orderly.execution {self self' : Evaluator} (h : Orderly D self self') (rounds : Nat)
    (x : Execution α) : Eval.Keeps D x.stage (x.eval self rounds) (x.eval self' rounds) := by
  cases x with
  | expression c => exact h .expression c
  | dispatch c => exact h.firstOf rounds Construct.chain c
  | statements paced c => exact h (.statements paced) c
  | block tokens => exact h.block tokens
  | call function arguments => exact h.call function arguments

/-- The session that an execution ends in, whether it succeeds, returns or fails. -/
def Execution.after (fuel : Nat) (x : Execution α) (s : Session) : Session :=
  Eval.final (x.run fuel s)

/-- Every execution keeps every discipline. -/
theorem Execution.keeps (D : Discipline) (fuel : Nat) (x : Execution α) {s : Session}
    (hfits : D.Fits x.stage s) : D.Rel x.stage s (x.after fuel s) :=
  (Orderly.execution (Phrase.keeps D fuel) fuel x s hfits).2

namespace Session

/-- The session in which a run starts: in the root scope, with no call active. -/
def fresh (s : Session) : Session := { s with env := s.env.reset, callDepth := 0 }

/-- The session after an evaluation. -/
private theorem evaluate_snd (s : Session) (x : Eval α) : (s.evaluate x).2 = Eval.final (x s) := by
  unfold evaluate
  cases x s <;> rfl

/-- A run executes statements. -/
theorem runTokens_snd (s : Session) (fuel : Nat) (tokens : List Token) :
    (s.runTokens fuel tokens).2 =
      (Execution.statements false (.start tokens)).after fuel s.fresh := by
  unfold runTokens
  rw [evaluate_snd]
  -- the cursor at the end is dropped after a success; a failure has none
  simp only [Reading.onTokens, Bind.bind, EStateM.bind, Execution.after, Execution.run,
    Execution.eval, fresh]
  split <;> rename_i hrun
  · split at hrun <;> rename_i hlist
    · cases hrun
      rw [hlist]
      rfl
    · cases hrun
  · split at hrun <;> rename_i hlist
    · cases hrun
    · cases hrun
      rw [hlist]
      rfl

/-- A call from outside is a call. -/
theorem call_snd (s : Session) (fuel : Nat) (function : Callable) (arguments : List Value) :
    (s.call fuel function arguments).2 = (Execution.call function arguments).after fuel s :=
  evaluate_snd _ _

/-- What whoever embeds an interpreter can do between changes of its own: run programs and call
functions. -/
inductive Proceeds : Session → Session → Prop where
  | run (s : Session) (fuel : Nat) (tokens : List Token) : Proceeds s (s.runTokens fuel tokens).2
  | call (s : Session) (fuel : Nat) (function : Callable) (arguments : List Value) :
    Proceeds s (s.call fuel function arguments).2

end Session

/-! ### Scopes and calls -/

/-- Scopes and calls are left as they were entered, and the settings are never touched. -/
def Discipline.nesting : Discipline where
  Rel _ s t := t.env.depth = s.env.depth ∧ t.callDepth = s.callDepth ∧ t.settings = s.settings
  refl _ _ := ⟨rfl, rfl, rfl⟩
  trans h h' := ⟨h'.1.trans h.1, h'.2.1.trans h.2.1, h'.2.2.trans h.2.2⟩
  ofExpression h := h
  -- scopes and calls are counted up and down in pairs
  ofStatement h := h
  define h := ⟨(Environment.Extended.of_define h).depth_eq, rfl, rfl⟩
  assign h := ⟨(Environment.Framed.of_assign h).extended.depth_eq, rfl, rfl⟩
  outside _ _ _ := ⟨rfl, rfl, rfl⟩
  scope h := by
    obtain ⟨hdepth, hcalls, hsettings⟩ := h
    refine ⟨?_, hcalls, hsettings⟩
    -- one scope more inside, so there is one to drop
    rw [Environment.depth_pop, hdepth, Environment.depth_push, Nat.add_sub_cancel]
  call h := by
    obtain ⟨hdepth, hcalls, hsettings⟩ := h
    exact ⟨hdepth, by rw [hcalls, Nat.add_sub_cancel], hsettings⟩

end Tern
