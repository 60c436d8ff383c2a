import Mathlib.Data.List.Induction
import Mathlib.Data.List.Nodup
import Tern.Evaluation.Run
import Tern.Proofs.Scanning

/-!
# Entering a function

Before the first statement of a body is executed, four things are asked: whether there is an
argument for each parameter, whether each argument is of the type that its parameter declares,
whether another call may be active, and whether no two parameters have the same name. The last of
them is asked while the parameters are bound, in a scope that is open already.

What executes the body is left open here. A call that is not entered ends in the same way whatever
would execute the body, so no statement of it is executed; one that is entered does nothing but
execute the body, in a session that is known beforehand.

## Key results

- `Callable.admits_or_refuses`: all conditions hold, or one of them is the first that does not
- `Eval.call_of_refuses`: the first condition that does not hold is the fault, and nothing changes
- `Eval.call_of_admits`: otherwise the body is executed where exactly the parameters are bound
- `Eval.entry_decided`: this is when and where bodies are executed, and how calls are refused
-/

namespace Tern

/-! ### When a function is entered -/

namespace Parameter

/-- Whether the parameter takes the argument: its declared type admits it, if there is one. -/
def takes (parameter : Parameter) (argument : Value) : Bool :=
  parameter.type.all (·.accepts argument)

/-- What the name of the parameter stands for in the body. -/
def bound (parameter : Parameter) (argument : Value) : String × Variable :=
  (parameter.name, { isFinal := true, type := parameter.type, value := argument })

end Parameter

namespace Callable

/-- Each parameter takes its argument. -/
def Suits (function : Callable) (arguments : List Value) : Prop :=
  ∀ pair ∈ function.parameters.zip arguments, pair.1.takes pair.2 = true

instance (function : Callable) (arguments : List Value) : Decidable (function.Suits arguments) :=
  inferInstanceAs (Decidable (∀ pair ∈ _, _))

/-- The function is entered if it is called on these arguments in this session. -/
structure Admits (function : Callable) (arguments : List Value) (s : Session) : Prop where
  arity : arguments.length = function.parameters.length
  types : function.Suits arguments
  depth : s.callDepth < s.settings.maxCallDepth
  names : (function.parameters.map (·.name)).Nodup

/-- The function is not entered if it is called on these arguments in this session, and this is the
fault: that of the first condition that does not hold. -/
inductive Refuses (function : Callable) (arguments : List Value) (s : Session) : Fault → Prop where
  | arity (hlength : arguments.length ≠ function.parameters.length) :
      Refuses function arguments s
        { cause := .arityMismatch function.name function.parameters.length arguments.length }
  /-- The leftmost argument that is not of the declared type. -/
  | type {before after : List (Parameter × Value)} {parameter : Parameter} {argument : Value}
      {type : Ty} (hlength : arguments.length = function.parameters.length)
      (hpairs : function.parameters.zip arguments = before ++ (parameter, argument) :: after)
      (hbefore : ∀ pair ∈ before, pair.1.takes pair.2 = true) (htype : parameter.type = some type)
      (hrefused : type.accepts argument = false) :
      Refuses function arguments s
        { cause := .typeMismatch (type.name ++ " for parameter `" ++ parameter.name ++ "`")
            argument.typeName }
  | depth (hlength : arguments.length = function.parameters.length)
      (hsuits : function.Suits arguments) (hlimit : s.settings.maxCallDepth ≤ s.callDepth) :
      Refuses function arguments s { cause := .recursionLimit s.settings.maxCallDepth }
  /-- The first name that was there before. The call counts as active then, so the fault leaves
  the function. -/
  | name {before after : List Parameter} {parameter : Parameter}
      (hlength : arguments.length = function.parameters.length)
      (hsuits : function.Suits arguments) (hdepth : s.callDepth < s.settings.maxCallDepth)
      (hparameters : function.parameters = before ++ parameter :: after)
      (hdistinct : (before.map (·.name)).Nodup)
      (hrepeated : parameter.name ∈ before.map (·.name)) :
      Refuses function arguments s
        { cause := .constantViolation parameter.name, unwound := [function.name] }

/-- Among all that is asked of a list, some element is the first that fails, unless none does. -/
private theorem forall_or_first {α : Type} (P : α → Prop) (xs : List α) :
    (∀ x ∈ xs, P x) ∨
      ∃ before x after, xs = before ++ x :: after ∧ (∀ y ∈ before, P y) ∧ ¬ P x := by
  induction xs with
  | nil => exact .inl (by simp)
  | cons x xs ih =>
    by_cases hx : P x
    · obtain hall | ⟨before, y, after, rfl, hbefore, hy⟩ := ih
      · exact .inl (List.forall_mem_cons.mpr ⟨hx, hall⟩)
      · exact .inr ⟨x :: before, y, after, rfl, List.forall_mem_cons.mpr ⟨hx, hbefore⟩, hy⟩
    · exact .inr ⟨[], x, xs, rfl, by simp, hx⟩

/-- Some parameter is the first whose name was there before, unless all names are different. -/
private theorem nodup_or_repeated (parameters : List Parameter) :
    (parameters.map (·.name)).Nodup ∨
      ∃ before parameter after, parameters = before ++ parameter :: after ∧
        (before.map (·.name)).Nodup ∧ parameter.name ∈ before.map (·.name) := by
  -- by the parameter behind all others, as a repetition further in front comes first
  induction parameters using List.reverseRecOn with
  | nil => exact .inl (by simp)
  | append_singleton parameters parameter ih =>
    obtain hnodup | ⟨before, first, after, rfl, hbefore, hfirst⟩ := ih
    · by_cases hmem : parameter.name ∈ parameters.map (·.name)
      · exact .inr ⟨parameters, parameter, [], rfl, hnodup, hmem⟩
      · refine .inl ?_
        rw [List.map_append, List.map_singleton, List.nodup_append_comm, List.singleton_append,
          List.nodup_cons]
        exact ⟨hmem, hnodup⟩
    · exact .inr ⟨before, first, after ++ [parameter], by simp, hbefore, hfirst⟩

/-- All conditions hold, or one of them is the first that does not. -/
theorem admits_or_refuses (function : Callable) (arguments : List Value) (s : Session) :
    function.Admits arguments s ∨ ∃ fault, function.Refuses arguments s fault := by
  -- the four conditions, in the order in which they are asked
  by_cases hlength : arguments.length = function.parameters.length
  case neg => exact .inr ⟨_, .arity hlength⟩
  obtain hsuits | ⟨before, ⟨parameter, argument⟩, after, hpairs, hbefore, hnot⟩ :=
    forall_or_first (fun pair => pair.1.takes pair.2 = true) (function.parameters.zip arguments)
  case inr =>
    obtain ⟨type, htype, hrefused⟩ : ∃ type, parameter.type = some type ∧
        type.accepts argument = false := by
      cases htype : parameter.type with
      | none => simp [Parameter.takes, htype] at hnot
      | some type => exact ⟨type, rfl, by simpa [Parameter.takes, htype] using hnot⟩
    exact .inr ⟨_, .type hlength hpairs hbefore htype hrefused⟩
  by_cases hdepth : s.callDepth < s.settings.maxCallDepth
  case neg => exact .inr ⟨_, .depth hlength hsuits (Nat.le_of_not_lt hdepth)⟩
  -- all names differ, or a first one is there twice
  obtain hnodup | ⟨before, parameter, after, hparameters, hdistinct, hrepeated⟩ :=
    nodup_or_repeated function.parameters
  · exact .inl ⟨hlength, hsuits, hdepth, hnodup⟩
  · exact .inr ⟨_, .name hlength hsuits hdepth hparameters hdistinct hrepeated⟩

end Callable

/-! ### Types of arguments -/

/-- Arguments are accepted if each parameter takes its own. -/
theorem checkTypes_of_takes {parameters : List Parameter} {arguments : List Value}
    (h : ∀ pair ∈ parameters.zip arguments, pair.1.takes pair.2 = true) :
    checkTypes parameters arguments = .ok () := by
  fun_induction checkTypes parameters arguments with
  | case1 parameter parameters argument arguments type htype haccepts ih =>
    exact ih fun pair hpair => h pair (List.mem_cons_of_mem _ hpair)
  | case2 parameter parameters argument arguments type htype hrefused =>
    have htakes := h (parameter, argument) List.mem_cons_self
    exact absurd (by simpa [Parameter.takes, htype] using htakes) hrefused
  | case3 parameter parameters argument arguments htype ih =>
    exact ih fun pair hpair => h pair (List.mem_cons_of_mem _ hpair)
  | case4 => rfl

/-- The leftmost argument that its parameter does not take is the cause. -/
theorem checkTypes_of_refused {parameters : List Parameter} {arguments : List Value}
    {before after : List (Parameter × Value)} {parameter : Parameter} {argument : Value} {type : Ty}
    (hpairs : parameters.zip arguments = before ++ (parameter, argument) :: after)
    (hbefore : ∀ pair ∈ before, pair.1.takes pair.2 = true) (htype : parameter.type = some type)
    (hrefused : type.accepts argument = false) :
    checkTypes parameters arguments =
      .error (.typeMismatch (type.name ++ " for parameter `" ++ parameter.name ++ "`")
        argument.typeName) := by
  -- along the arguments that are taken before
  induction before generalizing parameters arguments with
  | nil =>
    rcases parameters with _ | ⟨p, parameters⟩ <;> rcases arguments with _ | ⟨a, arguments⟩ <;>
      cases hpairs
    simp [checkTypes, htype, hrefused]
  | cons pair before ih =>
    rcases parameters with _ | ⟨p, parameters⟩ <;> rcases arguments with _ | ⟨a, arguments⟩ <;>
      simp only [List.zip_nil_left, List.zip_nil_right, List.zip_cons_cons, List.cons_append,
        reduceCtorEq, List.cons.injEq] at hpairs
    obtain ⟨rfl, hrest⟩ := hpairs
    obtain ⟨htakes, hbefore⟩ := List.forall_mem_cons.mp hbefore
    -- the first argument is taken, so the check comes to the others
    have hlater := ih hrest hbefore
    cases hp : p.type with
    | none => simp only [checkTypes, hp, hlater]
    | some declared =>
      have haccepts : declared.accepts a = true := by simpa [Parameter.takes, hp] using htakes
      simp only [checkTypes, hp, haccepts, if_true, hlater]

/-! ### Binding of parameters -/

/-- The session in a call that was entered from this one, where `scope` is the innermost. -/
def Session.inside (s : Session) (scope : Scope) : Session :=
  { s with
    callDepth := s.callDepth + 1
    env := { s.env with inner := scope :: s.env.inner } }

/-- The session behind a call, where the innermost scope is gone. -/
def Session.outside (s : Session) : Session :=
  { s with callDepth := s.callDepth - 1, env := s.env.pop }

namespace Scope

/-- A name that is not bound is bound behind all others. -/
private theorem insert_of_notMem {bindings : List (String × Variable)} {name : String}
    (h : name ∉ bindings.map Prod.fst) (binding : Variable) :
    insert ⟨bindings⟩ name binding = ⟨bindings ++ [(name, binding)]⟩ := by
  simp only [insert, mk.injEq]
  induction bindings with
  | nil => rfl
  | cons head bindings ih =>
    obtain ⟨hhead, hrest⟩ : name ≠ head.1 ∧ name ∉ bindings.map Prod.fst := by simpa using h
    simp [insertInto, Ne.symm hhead, ih hrest]

private theorem find?_of_notMem {bindings : List (String × Variable)} {name : String}
    (h : name ∉ bindings.map Prod.fst) : find? ⟨bindings⟩ name = none := by
  rw [find?, List.lookup_eq_none_iff]
  intro pair hpair
  have hne : name ≠ pair.1 := fun heq => h (heq ▸ List.mem_map_of_mem hpair)
  simpa using hne

/-- The names of parameters stand for final variables. -/
private theorem find?_of_parameter {parameters : List Parameter} {arguments : List Value}
    {name : String} (hlength : arguments.length = parameters.length)
    (hname : name ∈ parameters.map (·.name)) :
    ∃ binding, find? ⟨parameters.zipWith Parameter.bound arguments⟩ name = some binding ∧
      binding.isFinal = true := by
  -- along the parameters, of which the first with this name is meant
  induction parameters generalizing arguments with
  | nil => simp at hname
  | cons parameter parameters ih =>
    cases arguments with
    | nil => simp at hlength
    -- the value is bound under the name of its parameter
    | cons argument arguments =>
      simp only [find?, List.zipWith_cons_cons, Parameter.bound, List.lookup_cons]
      by_cases hsame : name = parameter.name
      · simp [hsame]
      · obtain ⟨binding, hfind, hfinal⟩ :=
          ih (by simpa using hlength) (by simpa [hsame] using hname)
        refine ⟨binding, ?_, hfinal⟩
        rw [beq_false_of_ne hsame]
        exact hfind

end Scope

namespace Eval

/-- A new name is declared in the innermost scope. -/
private theorem define_of_notMem {bindings : List (String × Variable)} {name : String}
    (h : name ∉ bindings.map Prod.fst) (binding : Variable) (s : Session) :
    define name binding (s.inside ⟨bindings⟩) =
      .ok () (s.inside ⟨bindings ++ [(name, binding)]⟩) := by
  have henv : (s.inside ⟨bindings⟩).env.define name binding =
      .ok (s.inside ⟨bindings ++ [(name, binding)]⟩).env := by
    simp [Environment.define, Environment.current, Environment.replaceCurrent, Session.inside,
      Scope.find?_of_notMem h, Scope.insert_of_notMem h]
  show updateEnv name binding.value.typeName ((s.inside ⟨bindings⟩).env.define name binding) _ = _
  rw [henv]
  rfl

/-- A name that stands for a final variable is not declared again. -/
private theorem define_of_final {scope : Scope} {name : String} {old : Variable}
    (h : scope.find? name = some old) (hfinal : old.isFinal = true) (binding : Variable)
    (s : Session) :
    define name binding (s.inside scope) =
      .error (.fault { cause := .constantViolation name }) (s.inside scope) := by
  obtain ⟨isFinal, type, value⟩ := old
  obtain rfl : isFinal = true := hfinal
  have henv : (s.inside scope).env.define name binding = .error .constant := by
    simp [Environment.define, Environment.current, Session.inside, h]
  show updateEnv name binding.value.typeName ((s.inside scope).env.define name binding) _ = _
  rw [henv]
  rfl

/-- Parameters are bound one after the other. -/
private theorem bindParameters_append {before : List Parameter} {first : List Value}
    (hlength : first.length = before.length) (parameters : List Parameter)
    (arguments : List Value) :
    bindParameters (before ++ parameters) (first ++ arguments) = (do
      bindParameters before first
      bindParameters parameters arguments) := by
  induction before generalizing first with
  | nil =>
    obtain rfl : first = [] := by simpa using hlength
    rfl
  | cons parameter before ih =>
    cases first with
    | nil => simp at hlength
    | cons argument first =>
      simp only [List.cons_append, bindParameters, ih (Nat.succ.inj hlength), bind_assoc]

/-- Parameters with new and different names are all bound, in their order. -/
theorem bindParameters_of_nodup {parameters : List Parameter} {arguments : List Value}
    (bindings : List (String × Variable)) (hlength : arguments.length = parameters.length)
    (hnames : (bindings.map Prod.fst ++ parameters.map (·.name)).Nodup) (s : Session) :
    bindParameters parameters arguments (s.inside ⟨bindings⟩) =
      .ok () (s.inside ⟨bindings ++ parameters.zipWith Parameter.bound arguments⟩) := by
  -- with the parameters that are bound already, whose names are different from all others
  induction parameters generalizing arguments bindings with
  | nil => simp [bindParameters, pure, EStateM.pure]
  | cons parameter parameters ih =>
    cases arguments with
    | nil => simp at hlength
    | cons argument arguments =>
      -- the name is new, so it is defined and the others follow
      have hnew : parameter.name ∉ bindings.map Prod.fst := fun hmem =>
        (List.nodup_append.mp hnames).2.2 _ hmem _ List.mem_cons_self rfl
      simp only [bindParameters]
      rw [bind_of_ok (define_of_notMem hnew _ s),
        ih _ (Nat.succ.inj hlength) (by simpa using hnames)]
      simp [Parameter.bound]

/-- The first name that was there before is not bound again, and the scope of the call is all that
has changed by then. -/
theorem bindParameters_of_repeated {before after : List Parameter} {parameter : Parameter}
    {arguments : List Value} (hlength : arguments.length = (before ++ parameter :: after).length)
    (hdistinct : (before.map (·.name)).Nodup) (hrepeated : parameter.name ∈ before.map (·.name))
    (s : Session) :
    ∃ scope, bindParameters (before ++ parameter :: after) arguments (s.inside {}) =
      .error (.fault { cause := .constantViolation parameter.name }) (s.inside scope) := by
  -- the arguments in front of the one whose name is there already
  obtain ⟨first, argument, rest, rfl, hfirst⟩ : ∃ first argument rest,
      arguments = first ++ argument :: rest ∧ first.length = before.length := by
    have hlt : before.length < arguments.length := by simp [hlength]
    refine ⟨arguments.take before.length, arguments[before.length],
      arguments.drop (before.length + 1), ?_, by simp [Nat.le_of_lt hlt]⟩
    rw [List.getElem_cons_drop, List.take_append_drop]
  -- these are bound without trouble
  have hbound := bindParameters_of_nodup [] hfirst (by simpa using hdistinct) s
  -- and the name is bound then, as all parameters are for good
  obtain ⟨old, hold, hfinal⟩ := Scope.find?_of_parameter hfirst hrepeated
  refine ⟨⟨before.zipWith Parameter.bound first⟩, ?_⟩
  rw [bindParameters_append hfirst, bind_of_ok hbound]
  exact bind_of_error (define_of_final hold hfinal _ s)

end Eval

/-! ### Calls -/

namespace Eval

/-- What becomes of a call when its body has ended: the first `return` gives the result, and a fault
leaves the function. -/
def concluded (name : String) :
    EStateM.Result Halt Session (Option Value) → EStateM.Result Halt Session Value
  | .ok returned s => .ok (returned.getD .void) s.outside
  | .error halt s => .error (halt.mapFault (·.leaving name)) s.outside

/-- A call runs its body in a scope of its own. -/
private theorem inCall_inScope (name : String) (x : Eval (Option Value)) (s : Session) :
    (do return (← inCall name (inScope x)).getD .void : Eval Value) s =
      concluded name (x (s.inside {})) := by
  have hpushed : inScope x { s with callDepth := s.callDepth + 1 } =
      afterwards x (fun session => { session with env := session.env.pop }) (s.inside {}) := rfl
  -- however the body ends, its scope is left and its call is over
  cases hx : x (s.inside {}) with
  | ok returned t =>
    have hcall : inCall name (inScope x) s = .ok returned t.outside := by
      show EStateM.adaptExcept _ (afterwards (inScope x) _)
        { s with callDepth := s.callDepth + 1 } = _
      simp only [EStateM.adaptExcept, afterwards, hpushed, hx, Session.outside]
    exact bind_of_ok hcall
  | error halt t =>
    have hcall : inCall name (inScope x) s =
        .error (halt.mapFault (·.leaving name)) t.outside := by
      show EStateM.adaptExcept _ (afterwards (inScope x) _)
        { s with callDepth := s.callDepth + 1 } = _
      simp only [EStateM.adaptExcept, afterwards, hpushed, hx, Session.outside]
    exact bind_of_error hcall

section

variable {function : Callable} {tokens : List Token} (hbody : function.body = .tokens tokens)
  {arguments : List Value} {s : Session}

include hbody

/-- Arguments that are not accepted. -/
private theorem call_of_check (self : Evaluator) {cause : Cause}
    (hcheck : function.check arguments = .error cause) :
    call self function arguments s = .error (.fault { cause }) s := by
  unfold call
  rw [hbody, hcheck]
  rfl

/-- What is left to ask when the arguments have been accepted. -/
private theorem call_of_suits (self : Evaluator)
    (hlength : arguments.length = function.parameters.length) (hsuits : function.Suits arguments) :
    call self function arguments s =
      if s.settings.maxCallDepth ≤ s.callDepth then
        .error (.fault { cause := .recursionLimit s.settings.maxCallDepth }) s
      else
        concluded function.name
          ((do
            bindParameters function.parameters arguments
            Reading.onTokens tokens (self (.statements true)) : Eval (Option Value))
          (s.inside {})) := by
  have hcheck : function.check arguments = .ok () := by
    rw [Callable.check, if_pos hlength, checkTypes_of_takes hsuits]
  unfold call
  rw [hbody, hcheck, ← inCall_inScope]
  show (if s.settings.maxCallDepth ≤ s.callDepth then _ else _ : Eval Value) s = _
  split <;> rfl

/-- The first condition that does not hold is the fault, and nothing changes. -/
theorem call_of_refuses {fault : Fault} (h : function.Refuses arguments s fault)
    (self : Evaluator) : call self function arguments s = .error (.fault fault) s := by
  -- the check comes first, then the limit, and the names last
  cases h with
  | arity hlength => exact call_of_check hbody self (by rw [Callable.check, if_neg hlength])
  | type hlength hpairs hbefore htype hrefused =>
    refine call_of_check hbody self ?_
    rw [Callable.check, if_pos hlength, checkTypes_of_refused hpairs hbefore htype hrefused]
  | depth hlength hsuits hlimit => rw [call_of_suits hbody self hlength hsuits, if_pos hlimit]
  | name hlength hsuits hdepth hparameters hdistinct hrepeated =>
    rw [hparameters] at hlength
    obtain ⟨scope, hbind⟩ := bindParameters_of_repeated hlength hdistinct hrepeated s
    rw [call_of_suits hbody self (hparameters ▸ hlength) hsuits, if_neg (Nat.not_le.mpr hdepth),
      hparameters, bind_of_error hbind]
    rfl

/-- The body is executed where exactly the parameters are bound. -/
theorem call_of_admits (h : function.Admits arguments s) (self : Evaluator) :
    call self function arguments s =
      concluded function.name
        (Reading.onTokens tokens (self (.statements true))
          (s.inside ⟨function.parameters.zipWith Parameter.bound arguments⟩)) := by
  have hbind := bindParameters_of_nodup [] h.arity (by simpa using h.names) s
  rw [call_of_suits hbody self h.arity h.types, if_neg (Nat.not_le.mpr h.depth)]
  exact congrArg _ (bind_of_ok hbind)

end

/-! ### Whether and where a body is executed -/

/-- A call of the function executes its body, from the session `start` on: whatever executes the
body, the call does nothing else. -/
def Starts (function : Callable) (arguments : List Value) (s start : Session) : Prop :=
  ∃ tokens, function.body = .tokens tokens ∧ ∀ self : Evaluator,
    call self function arguments s =
      concluded function.name (Reading.onTokens tokens (self (.statements true)) start)

/-- A call of the function ends with this fault and the session as it was. What would execute the
body makes no difference. -/
def Fails (function : Callable) (arguments : List Value) (s : Session) (fault : Fault) : Prop :=
  ∀ self : Evaluator, call self function arguments s = .error (.fault fault) s

/-- Halts at once, in a way that depends on the session. -/
private def halting (halt : Session → Halt) : Evaluator := fun _ _ _ s => .error (halt s) s

/-- A body that is executed is executed in one session only. -/
private theorem Starts.unique {function : Callable} {arguments : List Value}
    {s start other : Session} (h : Starts function arguments s start)
    (h' : Starts function arguments s other) : start = other := by
  classical
  obtain ⟨tokens, hbody, hstarts⟩ := h
  obtain ⟨tokens', hbody', hstarts'⟩ := h'
  by_contra hne
  -- an evaluator that tells the two sessions apart
  let halt (t : Session) : Halt :=
    if t = start then .outOfFuel else .fault { cause := .divisionByZero }
  have hsame := (hstarts (halting halt)).symm.trans (hstarts' (halting halt))
  have hstart : halt start = .outOfFuel := if_pos rfl
  have hother : halt other = .fault { cause := .divisionByZero } := if_neg (Ne.symm hne)
  simp only [Reading.onTokens, halting, Bind.bind, EStateM.bind, concluded, hstart, hother,
    Halt.mapFault, EStateM.Result.error.injEq, reduceCtorEq, false_and] at hsame

/-- A call that fails at once does not execute the body. -/
private theorem Starts.not_fails {function : Callable} {arguments : List Value} {s start : Session}
    (h : Starts function arguments s start) {fault : Fault} :
    ¬ Fails function arguments s fault := by
  obtain ⟨tokens, hbody, hstarts⟩ := h
  intro hfails
  have hsame := (hstarts (halting fun _ => .outOfFuel)).symm.trans (hfails _)
  simp only [Reading.onTokens, halting, Bind.bind, EStateM.bind, concluded, Halt.mapFault,
    EStateM.Result.error.injEq, reduceCtorEq, false_and] at hsame

/-- When and where the body of a function is executed, and how a call fails before. Take a function
that is written in the language, and call it on any arguments in any session:

* its body is executed exactly if there are as many arguments as parameters, each parameter takes
  its argument, another call may be active, and no two parameters have the same name. It is then
  executed in a new scope inside the innermost one, which binds exactly the parameters to their
  arguments, as final variables of the declared types;
* otherwise the call fails, with the first of these conditions that does not hold as its fault. No
  statement of the body is executed, and the session is what it was. -/
theorem entry_decided {function : Callable} {tokens : List Token}
    (hbody : function.body = .tokens tokens) (arguments : List Value) (s : Session) :
    (∀ start, Starts function arguments s start ↔
      function.Admits arguments s ∧
        start = s.inside ⟨function.parameters.zipWith Parameter.bound arguments⟩) ∧
    (∀ fault, Fails function arguments s fault ↔ function.Refuses arguments s fault) ∧
    (¬ function.Admits arguments s ↔ ∃ fault, function.Refuses arguments s fault) := by
  -- each of the two happens if its condition holds, and one of the conditions does
  have hstarts : function.Admits arguments s →
      Starts function arguments s
        (s.inside ⟨function.parameters.zipWith Parameter.bound arguments⟩) :=
    fun hadmits => ⟨tokens, hbody, call_of_admits hbody hadmits⟩
  have hfails : ∀ {fault}, function.Refuses arguments s fault → Fails function arguments s fault :=
    fun hrefuses => call_of_refuses hbody hrefuses
  -- so each of the two happens only then
  refine ⟨fun start => ⟨fun h => ?_, ?_⟩, fun fault => ⟨fun h => ?_, hfails⟩, ?_, ?_⟩
  · obtain hadmits | ⟨fault, hrefuses⟩ := function.admits_or_refuses arguments s
    · exact ⟨hadmits, h.unique (hstarts hadmits)⟩
    · exact absurd (hfails hrefuses) h.not_fails
  · rintro ⟨hadmits, rfl⟩
    exact hstarts hadmits
  · obtain hadmits | ⟨first, hrefuses⟩ := function.admits_or_refuses arguments s
    · exact absurd h (hstarts hadmits).not_fails
    · -- any evaluator shows that it is the same fault
      have hsame := (h (halting fun _ => .outOfFuel)).symm.trans (hfails hrefuses _)
      cases hsame
      exact hrefuses
  · exact fun hnot => (function.admits_or_refuses arguments s).resolve_left hnot
  · rintro ⟨fault, hrefuses⟩ hadmits
    exact (hstarts hadmits).not_fails (hfails hrefuses)

/-- A function with two repeated names, called in a block: what is wrong in several ways fails for
the first of them, and of the names the one that is repeated first counts. With different names the
body is executed. -/
theorem entry_decided_repeated :
    let f : Callable :=
      { id := 0
        name := "f"
        parameters := [⟨"a", some .number⟩, ⟨"b", none⟩, ⟨"b", some .string⟩, ⟨"a", none⟩]
        returns := none
        body := .tokens [] }
    let g : Callable := { f with parameters := f.parameters.take 2 }
    let s : Session := { env := { inner := [{}] } }
    let limit : Session := { s with callDepth := 512 }
    let mistyped : List Value := [.number 1, .void, .void, .void]
    let suitable : List Value := [.number 1, .void, .text "", .void]
    Fails f [.void] limit { cause := .arityMismatch "f" 4 1 } ∧
      Fails f mistyped limit { cause := .typeMismatch "string for parameter `b`" "void" } ∧
      Fails f suitable limit { cause := .recursionLimit 512 } ∧
      Fails f suitable s { cause := .constantViolation "b", unwound := ["f"] } ∧
      Starts g [.number 1, .void] s
        { s with
          callDepth := 1
          env :=
            { root := {}
              inner := [⟨[("a", { isFinal := true, type := some .number, value := .number 1 }),
                ("b", { isFinal := true, type := none, value := .void })]⟩, {}] } } := by
  intro f g s limit mistyped suitable
  have hfails : ∀ arguments s fault, f.Refuses arguments s fault → Fails f arguments s fault :=
    fun arguments s fault => ((entry_decided rfl arguments s).2.1 fault).mpr
  have htype : f.parameters.zip mistyped =
      [(⟨"a", some .number⟩, .number 1), (⟨"b", none⟩, .void)] ++
        (⟨"b", some .string⟩, .void) :: [(⟨"a", none⟩, .void)] := rfl
  -- the second parameter has the name of the third
  have hnames : f.parameters =
      [⟨"a", some .number⟩, ⟨"b", none⟩] ++ ⟨"b", some .string⟩ :: [⟨"a", none⟩] := rfl
  refine ⟨hfails _ _ _ (.arity (by decide)),
    hfails _ _ _ (.type rfl htype (by decide) rfl rfl),
    hfails _ _ _ (.depth rfl (by decide) (by decide)),
    hfails _ _ _ (.name rfl (by decide) (by decide) hnames (by decide) (by decide)), ?_⟩
  exact ((entry_decided (show g.body = .tokens [] from rfl) _ _).1 _).mpr
    ⟨⟨rfl, by decide, by decide, by decide⟩, rfl⟩

end Eval

end Tern
